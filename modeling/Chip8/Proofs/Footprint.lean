import Chip8.Proofs.Provenance
import Chip8.Proofs.Screen

/-!
# Footprints of instructions

Which registers, which bytes of memory and which other parts of the machine a successful step may
change. Whatever lies outside of the footprint of the instruction is as it was before the step,
and on the hardware, too, no access strays from it.
-/

namespace Chip8

namespace Instruction

def setsIndex : Instruction → Bool
  | loadIndex _ | addIndex _ | loadGlyph _ => true
  | _ => false

def usesStack : Instruction → Bool
  | call _ | ret => true
  | _ => false

def paints : Instruction → Bool
  | clearScreen | draw _ _ _ => true
  | _ => false

def usesRandom : Instruction → Bool
  | random _ _ => true
  | _ => false

end Instruction

namespace Machine

/-- The instruction may change register `j`. -/
def Targets (m : Machine) (i : Instruction) (j : Fin 16) : Prop :=
  match i with
  | .loadByte x _ | .addByte x _ | .load x _ | .or x _ | .and x _ | .xor x _ | .random x _
  | .loadDelayTimer x => j = x
  | .waitForKey x => j = x ∧ ∃ key, m.isKeyPressed key = true
  | .add x _ | .sub x _ | .subN x _ | .shiftRight x | .shiftLeft x => j = x ∨ j = flagRegister
  | .draw _ _ _ | .addIndex _ => j = flagRegister
  | .loadRegisters x => j ≤ x
  | _ => False

/-- The addresses that the instruction stores to. -/
def stored (m : Machine) : Instruction → List Nat
  | .storeBcd _ => List.range' m.index.toNat 3
  | .storeRegisters x => List.range' m.index.toNat (x + 1)
  | _ => []

/-- What an instruction leaves of a machine. -/
structure Footprint (m : Machine) (i : Instruction) (after : Machine) : Prop where
  registers : ∀ j, ¬m.Targets i j → after.v j = m.v j
  index : i.setsIndex = false → after.index = m.index
  stack : i.usesStack = false → after.stack = m.stack
  memory : ∀ a, a ∉ m.stored i → after.memory.read a = m.memory.read a
  display : i.paints = false → after.display = m.display
  random : i.usesRandom = false → after.random = m.random
  keypad : after.keypad = m.keypad
  delayTimer : after.delayTimer.toNat =
    (match i with
      | .setDelayTimer x => m.v x
      | _ => m.delayTimer).toNat - 1
  soundTimer : after.soundTimer.toNat =
    (match i with
      | .setSoundTimer x => m.v x
      | _ => m.soundTimer).toNat - 1

/-! ## Registers -/

theorem v_setFlagged (m : Machine) (x : Fin 16) (value : UInt8) (f : Bool) (j : Fin 16) :
    (m.setFlagged x value f).v j =
      if j = flagRegister then flag f else if j = x then value else m.v j := by
  rw [setFlagged, v_setV, v_setV]

theorem v_loadRegisters (m : Machine) (x j : Fin 16) :
    (m.effect (.loadRegisters x)).v j =
      if j ≤ x then m.memory.read (m.index.toNat + j) else m.v j := by
  have hafter := (m.effect (.loadRegisters x)).getElem?_registers j
  simp only [effect, Vector.getElem?_mapIdx, getElem?_registers, Option.map_some] at hafter
  exact (Option.some.inj hafter).symm

theorem v_effect_of_not_targets {m : Machine} {i : Instruction} {j : Fin 16}
    (h : ¬m.Targets i j) : (m.effect i).v j = m.v j := by
  cases i with
  | loadByte x _ | addByte x _ | load x _ | or x _ | and x _ | xor x _ | random x _
  | loadDelayTimer x => exact (m.v_setV x _ j).trans (if_neg h)
  | add x _ | sub x _ | subN x _ | shiftRight x | shiftLeft x =>
      obtain ⟨hx, hflag⟩ := not_or.1 h
      exact (m.v_setFlagged x _ _ j).trans ((if_neg hflag).trans (if_neg hx))
  | draw _ _ _ | addIndex _ => exact (m.v_setV flagRegister _ j).trans (if_neg h)
  | waitForKey x =>
      simp only [effect]
      cases hkey : m.keypad.lowest? with
      | none => rfl
      | some key =>
          -- the lowest key that is down is down
          have hpressed : ∃ key, m.isKeyPressed key = true :=
            m.keypad.exists_isPressed (hkey ▸ Option.some_ne_none key)
          exact (m.v_setV x _ j).trans (if_neg fun hj => h ⟨hj, hpressed⟩)
  | loadRegisters x => exact (m.v_loadRegisters x j).trans (if_neg h)
  | _ => rfl

/-! ## The other parts -/

theorem index_effect (m : Machine) (i : Instruction) :
    (m.effect i).index =
      match i with
      | .loadIndex addr => .ofNat addr
      | .addIndex x => m.index + (m.v x).toUInt16
      | .loadGlyph x => Font.glyphAddress (m.v x)
      | _ => m.index := by
  cases i with
  | waitForKey x => rw [effect_waitForKey]
  | _ => rfl

theorem random_effect (m : Machine) (i : Instruction) :
    (m.effect i).random = if i.usesRandom then m.random.advance else m.random := by
  cases i with
  | waitForKey x =>
      rw [effect_waitForKey]
      rfl
  | _ => rfl

theorem keypad_effect (m : Machine) (i : Instruction) : (m.effect i).keypad = m.keypad := by
  cases i with
  | waitForKey x => rw [effect_waitForKey]
  | _ => rfl

theorem delayTimer_effect (m : Machine) (i : Instruction) :
    (m.effect i).delayTimer =
      match i with
      | .setDelayTimer x => m.v x
      | _ => m.delayTimer := by
  cases i with
  | waitForKey x => rw [effect_waitForKey]
  | _ => rfl

theorem soundTimer_effect (m : Machine) (i : Instruction) :
    (m.effect i).soundTimer =
      match i with
      | .setSoundTimer x => m.v x
      | _ => m.soundTimer := by
  cases i with
  | waitForKey x => rw [effect_waitForKey]
  | _ => rfl

theorem read_effect_of_notMem {m : Machine} {i : Instruction} {a : Nat} (h : a ∉ m.stored i) :
    (m.effect i).memory.read a = m.memory.read a := by
  rw [memory_effect]
  cases i with
  | storeBcd x =>
      rw [stored, List.mem_range'_1] at h
      have hout : ¬(m.index.toNat ≤ a ∧ a < m.index.toNat + 3 ∧ a < 4096) := by omega
      exact (m.memory.read_store _ _ a).trans (if_neg hout)
  | storeRegisters x =>
      rw [stored, List.mem_range'_1] at h
      have hlength : (m.registers.toList.take (x + 1)).length ≤ x + 1 := List.length_take_le _ _
      have hout : ¬(m.index.toNat ≤ a ∧
          a < m.index.toNat + (m.registers.toList.take (x + 1)).length ∧ a < 4096) := by omega
      exact (m.memory.read_store _ _ a).trans (if_neg hout)
  | _ => rfl

theorem toNat_countDown (timer : UInt8) : (countDown timer).toNat = timer.toNat - 1 := by
  have htimer := timer.toNat_lt
  exact UInt8.toNat_ofNat_of_lt' (by simp only [UInt8.size]; omega)

/-- The tone sounds if this tick stops the sound timer. -/
theorem tone_tick (m : Machine) : m.tick.tone = true ↔ m.soundTimer.toNat = 1 := by
  have htone : m.tick.tone = decide (m.soundTimer = 1) := rfl
  rw [htone, decide_eq_true_iff, ← UInt8.toNat_inj]
  rfl

/-! ## One step -/

theorem footprint_advance (m : Machine) (i : Instruction) : m.Footprint i (m.advance i) where
  registers _ h := v_effect_of_not_targets h
  index h := by
    change (m.effect i).index = m.index
    rw [index_effect]
    cases i with
    | loadIndex _ | addIndex _ | loadGlyph _ => cases h
    | _ => rfl
  stack h := by
    change (m.effect i).stack = m.stack
    rw [stack_effect]
    cases i with
    | call _ | ret => cases h
    | _ => rfl
  memory _ h := read_effect_of_notMem h
  display h := by
    change (m.effect i).display = m.display
    rw [display_effect]
    cases i with
    | clearScreen | draw _ _ _ => cases h
    | _ => rfl
  random h := (m.random_effect i).trans (if_neg (Bool.eq_false_iff.1 h))
  keypad := m.keypad_effect i
  delayTimer := by
    change (countDown (m.effect i).delayTimer).toNat = _
    rw [toNat_countDown, delayTimer_effect]
  soundTimer := by
    change (countDown (m.effect i).soundTimer).toNat = _
    rw [toNat_countDown, soundTimer_effect]

end Machine

namespace Hardware

/-- A successful step changes nothing outside of the footprint of the instruction that it
executes, and the accesses of the hardware leave just this machine. -/
theorem step_footprint (m : Machine) (hok : m.step.fault = none) :
    (∃ i, m.next? = .ok i ∧ m.Footprint i m.step.machine) ∧
      (m.stack.depth ≤ 16 → ∀ log,
        step (ofMachine log m) = .done () (ofMachine (log ++ m.step.log) m.step.machine)) := by
  constructor
  · rcases m.step_cases with ⟨fault, log, hstep⟩ | ⟨i, log, hnext, -, hstep⟩
    · rw [hstep] at hok
      cases hok
    · rw [hstep]
      exact ⟨i, hnext, m.footprint_advance i⟩
  · intro hdepth log
    have hstep := step_ofMachine log m hdepth
    simpa only [Result.ofOutcome, hok] using hstep

/-- Storing `V0` to `V2` in the last three bytes of memory keeps the byte in front of them, the
registers and the index register. -/
theorem step_footprint_last_bytes :
    let m := (Machine.powerOn (.ofSeed 7)).after [.load [0xAF, 0xFD, 0xF2, 0x55], .step]
    m.step.fault = none ∧ m.next? = .ok (.storeRegisters 2) ∧
      m.Footprint (.storeRegisters 2) m.step.machine ∧
        m.step.machine.memory.read 0xFFC = m.memory.read 0xFFC ∧ m.step.machine.index = m.index := by
  intro m
  have hstate : m.step.fault = none ∧ m.next? = .ok (.storeRegisters 2) ∧ m.index = 0xFFD := by
    decide +kernel
  obtain ⟨hok, hnext, hindex⟩ := hstate
  obtain ⟨⟨i, hi, hfootprint⟩, -⟩ := step_footprint m hok
  obtain rfl : i = .storeRegisters 2 := Except.ok.inj (hi.symm.trans hnext)
  have hout : 0xFFC ∉ m.stored (.storeRegisters 2) := by
    rw [Machine.stored, hindex]
    decide
  exact ⟨hok, hnext, hfootprint, hfootprint.memory _ hout, hfootprint.index rfl⟩

end Hardware

end Chip8
