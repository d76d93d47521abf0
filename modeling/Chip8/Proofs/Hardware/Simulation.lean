import Chip8.Proofs.Hardware.Instructions

/-!
# Calls on images

Every call on the image of a machine ends as the call on the machine does, at the image of the
machine that this leaves. The stack must not hold more than sixteen calls, which is kept.
-/

namespace Chip8

namespace Machine

def muted (m : Machine) : Machine := { m with tone := false }

variable (m : Machine)

@[simp] theorem pc_muted : m.muted.pc = m.pc := rfl

@[simp] theorem registers_muted : m.muted.registers = m.registers := rfl

theorem awaits?_muted (i : Instruction) : m.muted.awaits? i = m.awaits? i := by
  cases i with
  | _ => rfl

theorem nextPc_muted (i : Instruction) : m.muted.nextPc i = m.nextPc i := by
  cases i with
  | _ => rfl

theorem effect_muted (i : Instruction) : m.muted.effect i = (m.effect i).muted := by
  cases i with
  | waitForKey x =>
      simp only [effect]
      cases hkey : m.keypad.lowest? with
      | some key => simp [muted, hkey, setV]
      | none => simp [muted, hkey]
  | _ => rfl

end Machine

namespace Hardware

variable (log : List Event) (m : Machine)

/-! ## Fetching and decoding -/

theorem shiftLeft_eight_or (high low : UInt8) :
    high.toUInt16 <<< 8 ||| low.toUInt16 = UInt16.ofNat (256 * high.toNat + low.toNat) := by
  have hhigh := high.toNat_lt
  have hlow := low.toNat_lt
  apply UInt16.toNat_inj.1
  have hshift : (high.toUInt16 <<< 8).toNat = high.toNat <<< 8 := by
    simp [UInt16.toNat_shiftLeft, Nat.shiftLeft_eq]
    omega
  rw [UInt16.toNat_or, hshift, UInt8.toNat_toUInt16, ← Nat.shiftLeft_add_eq_or_of_lt hlow,
    UInt16.toNat_ofNat_of_lt', Nat.shiftLeft_eq, Nat.mul_comm]
  simp only [UInt16.size]
  omega

theorem fetch_ofMachine :
    fetch (ofMachine log m) =
      match m.fetch with
      | .error fault => .fault fault (ofMachine log m)
      | .ok opcode => .done opcode (ofMachine log m) := by
  have hpc := m.pc.toNat_lt
  have hfits : m.pc.toNat + 1 < sizeValues := lt_sizeValues (by omega)
  have hpc' : (ofMachine log m).pc = m.pc := rfl
  have hmemory : (ofMachine log m).memory = m.memory.bytes := rfl
  simp only [fetch, bind_apply, look_apply, id_eq, hpc', sum_apply hfits, if_apply, Machine.fetch]
  by_cases hout : 4096 ≤ m.pc.toNat + 1
  · simp only [if_pos hout, raise_apply]
  · have hlow : m.pc.toNat + 1 < 4096 := Nat.lt_of_not_le hout
    have hhigh : m.pc.toNat < 4096 := Nat.lt_of_succ_lt hlow
    simp only [if_neg hout, hmemory, entry_apply _ hhigh, entry_apply _ hlow,
      pure_apply, shiftLeft_eight_or, Memory.read, Vector.getElem?_eq_getElem hhigh,
      Vector.getElem?_eq_getElem hlow, Option.getD_some]

theorem operand_apply {limit : Nat} {field : UInt16} {k : Fin limit}
    (hfield : field.toNat = k.val) (h : Hardware) : operand limit field h = .done k h := by
  have hlt : field.toNat < limit := hfield ▸ k.isLt
  have hk : (⟨field.toNat, hlt⟩ : Fin limit) = k := Fin.ext hfield
  rw [operand, dif_pos hlt, hk, pure_apply]

theorem toNat_and_fifteen (w : UInt16) : (w &&& 0x000F).toNat = w.toNat % 16 :=
  Nat.and_two_pow_sub_one_eq_mod w.toNat 4

theorem toNat_and_4095 (w : UInt16) : (w &&& 0x0FFF).toNat = w.toNat % 4096 :=
  Nat.and_two_pow_sub_one_eq_mod w.toNat 12

theorem decode_apply (opcode : UInt16) (h : Hardware) :
    decode opcode h =
      match Instruction.decode opcode with
      | .error fault => .fault fault h
      | .ok i => .done i h := by
  have hx : ((opcode >>> 8) &&& 0x000F).toNat = (Opcode.x opcode).val := by
    rw [toNat_and_fifteen, UInt16.toNat_shiftRight]
    simp [Nat.shiftRight_eq_div_pow, Opcode.x]
  have hy : ((opcode >>> 4) &&& 0x000F).toNat = (Opcode.y opcode).val := by
    rw [toNat_and_fifteen, UInt16.toNat_shiftRight]
    simp [Nat.shiftRight_eq_div_pow, Opcode.y]
  have hn : (opcode &&& 0x000F).toNat = (Opcode.n opcode).val := toNat_and_fifteen opcode
  have haddr : (opcode &&& 0x0FFF).toNat = (Opcode.addr opcode).val := toNat_and_4095 opcode
  simp only [decode, bind_apply, operand_apply hx, operand_apply hy, operand_apply hn,
    operand_apply haddr, Instruction.decode, Instruction.ofOpcode?, Opcode.kk]
  cases Instruction.ofFields? opcode (Opcode.x opcode) (Opcode.y opcode) (Opcode.n opcode)
      opcode.toUInt8 (Opcode.addr opcode) with
  | none => rfl
  | some i => rfl

/-! ## Steps and runs -/

theorem mute_ofMachine : mute (ofMachine log m) = .done () (ofMachine log m.muted) := rfl

theorem report_ofMachine (event : Event) :
    report event (ofMachine log m) = .done () (ofMachine (log ++ [event]) m) := rfl

-- The tone was switched off at the start of the step, so it sounds only if it is switched on here.
theorem decayTimers_ofMachine :
    decayTimers (ofMachine log m.muted) =
      .done () (ofMachine (log ++ if m.tick.tone then [.toneTick] else []) m.tick) := by
  by_cases htimer : m.soundTimer = 1
  · have htick : m.tick = { m with
        delayTimer := Machine.countDown m.delayTimer
        soundTimer := Machine.countDown m.soundTimer
        tone := true } := by
      simp [Machine.tick, htimer]
    rw [htick]
    simp only [decayTimers, bind_apply, change_apply, look_apply, if_apply]
    exact if_pos htimer
  · have htick : m.tick = { m with
        delayTimer := Machine.countDown m.delayTimer
        soundTimer := Machine.countDown m.soundTimer
        tone := false } := by
      simp [Machine.tick, htimer]
    rw [htick]
    simp only [decayTimers, bind_apply, change_apply, look_apply, if_apply, Bool.false_eq_true,
      if_false, List.append_nil]
    exact if_neg htimer

theorem cycle_of_error {fault : Fault} (hnext : m.next? = .error fault) :
    cycle (ofMachine log m) = .fault fault (ofMachine log m) := by
  unfold Machine.next? at hnext
  simp only [cycle, bind_apply, fetch_ofMachine]
  cases hfetch : m.fetch with
  | error e =>
      rw [hfetch] at hnext
      cases hnext
      rfl
  | ok opcode =>
      simp only [hfetch] at hnext
      simp only [decode_apply, hnext]

theorem cycle_of_ok {opcode : UInt16} {i : Instruction} (hfetch : m.fetch = .ok opcode)
    (hdecode : Instruction.decode opcode = .ok i) :
    cycle (ofMachine log m) =
      execute i (ofMachine (log ++ [.executing m.pc opcode i m.registers]) m) := by
  simp only [cycle, bind_apply, fetch_ofMachine, hfetch, decode_apply, hdecode, look_apply, id_eq,
    report_ofMachine, pc_ofMachine, registers_ofMachine]

theorem reporting_of_fault {p : Action Unit} {h : Hardware} {fault : Fault}
    (hp : p h = .fault fault (ofMachine log m)) :
    reporting p h = .fault fault (ofMachine (log ++ [.faulted m.pc fault]) m) := by
  simp only [reporting, hp]
  rfl

theorem reporting_of_done {p : Action Unit} {h next : Hardware} (hp : p h = .done () next) :
    reporting p h = .done () next := by
  simp only [reporting, hp]

theorem step_ofMachine (hdepth : m.stack.depth ≤ 16) :
    step (ofMachine log m) = Result.ofOutcome log m.step := by
  rw [step, bind_of_done (mute_ofMachine log m)]
  cases hnext : m.next? with
  | error fault =>
      have hcycle := cycle_of_error log m.muted hnext
      rw [bind_of_fault (reporting_of_fault log m.muted hcycle),
        Machine.step_of_next?_eq_error hnext]
      rfl
  | ok i =>
      obtain ⟨opcode, hfetch, hdecode, hstep⟩ := Machine.step_of_next?_eq_ok hnext
      have hcycle := cycle_of_ok log m.muted hfetch hdecode
      cases hi : m.fault? i with
      | some fault =>
          have hi' : m.muted.fault? i = some fault := (Machine.fault?_congr rfl rfl i).trans hi
          rw [execute_of_fault _ m.muted hdepth hi'] at hcycle
          rw [bind_of_fault (reporting_of_fault _ m.muted hcycle), hstep, hi]
          simp [Result.ofOutcome, Machine.stop, Machine.muted]
      | none =>
          have hi' : m.muted.fault? i = none := (Machine.fault?_congr rfl rfl i).trans hi
          rw [execute_ofMachine _ m.muted hdepth hi', m.effect_muted, m.nextPc_muted,
            m.awaits?_muted] at hcycle
          rw [bind_of_done (reporting_of_done hcycle), hstep, hi]
          refine (decayTimers_ofMachine _ { m.effect i with pc := m.nextPc i }).trans ?_
          simp only [Result.ofOutcome, Machine.pc_muted, Machine.registers_muted, List.append_assoc,
            List.cons_append, List.nil_append]
          rfl

theorem run_ofMachine (hdepth : m.stack.depth ≤ 16) (n : Nat) :
    run n (ofMachine log m) = Result.ofOutcome log (m.run n) := by
  induction n generalizing m log with
  | zero =>
      simp [run, Result.ofOutcome, Outcome.quiet]
  | succ n ih =>
      have hstep := step_ofMachine log m hdepth
      rw [Machine.run_succ, run]
      cases hfault : m.step.fault with
      | some fault =>
          simp only [Result.ofOutcome, hfault] at hstep ⊢
          exact bind_of_fault hstep
      | none =>
          simp only [Result.ofOutcome, hfault] at hstep
          rw [bind_of_done hstep, ih _ _ (Machine.depth_step_le hdepth)]
          simp [Result.ofOutcome, Outcome.after]

/-! ## Other calls -/

theorem load_ofMachine (program : List UInt8) :
    load program (ofMachine log m) = Result.ofOutcome log (m.load program) := by
  rcases Nat.lt_or_ge 3584 program.length with hlarge | hsmall
  · simp only [m.load_of_gt hlarge, load, if_apply, if_pos hlarge, raise_apply, Result.ofOutcome,
      List.append_nil]
  · have hle : 512 ≤ 512 + program.length := Nat.le_add_right _ _
    have hroom : 512 + program.length ≤ 4096 := by omega
    have hlength : program.length = 512 + program.length - 512 := by omega
    have hfits : 512 + program.length < sizeValues := lt_sizeValues (by omega)
    simp only [m.load_of_le hsmall, load, if_apply, if_neg (Nat.not_lt.2 hsmall), bind_apply,
      sum_apply hfits, look_apply, id_eq, memory_ofMachine, withSlice_bytes _ hle hroom hlength,
      change_apply]
    rfl

theorem clear_apply (h : Hardware) :
    clear h = .done () (ofMachine h.log (Machine.powerOn h.random)) := by
  have hfont : ∀ h, withSlice (.replicate 4096 0) 0 80 Font.glyphs h =
      .done (Memory.zero.store 0 Font.glyphs).bytes h :=
    fun h => withSlice_bytes Memory.zero (by decide) (by decide) rfl h
  simp only [clear, bind_apply, change_apply, look_apply, id_eq, hfont, ← cells_blank]
  rfl

theorem construct_eq (random : Random.Generator) :
    construct random = .done () (ofMachine [] (Machine.powerOn random)) :=
  clear_apply _

theorem setKey_ofMachine (key : UInt8) (down : Bool) :
    setKey key down (ofMachine log m) =
      .done () (ofMachine log { m with keypad := ⟨m.keypad.keys.setIfInBounds key.toNat down⟩ }) := by
  simp only [setKey, bind_apply, look_apply, id_eq, keypad_ofMachine, if_apply]
  by_cases hkey : key.toNat < 16
  · simp only [if_pos hkey, withEntry_apply _ hkey, change_apply]
    rfl
  · rw [if_neg hkey, Vector.setIfInBounds_eq_of_size_le (Nat.le_of_not_lt hkey)]
    rfl

theorem answer_of_depth_le (hdepth : m.stack.depth ≤ 16) (call : Call) :
    answer call (ofMachine log m) = Result.ofOutcome log (m.perform call) := by
  have hquiet : ∀ next : Machine,
      Result.ofOutcome log (.quiet next) = .done () (ofMachine log next) := by
    intro next
    simp [Result.ofOutcome, Outcome.quiet]
  cases call with
  | load program => exact load_ofMachine log m program
  | step => exact step_ofMachine log m hdepth
  | run n => exact run_ofMachine log m hdepth n
  | reset => exact (clear_apply (ofMachine log m)).trans (hquiet _).symm
  | setKeys keys => exact (hquiet (m.setKeys keys)).symm
  | keyDown key => exact (setKey_ofMachine log m key true).trans (hquiet _).symm
  | keyUp key => exact (setKey_ofMachine log m key false).trans (hquiet _).symm

theorem answer_ofMachine (hm : m.Bounded) (call : Call) :
    answer call (ofMachine log m) = Result.ofOutcome log (m.perform call) :=
  answer_of_depth_le log m hm.depth_le call

/-! ## Queries -/

theorem pixel_ofMachine (x y : Nat) :
    pixel x y (ofMachine log m) = .done (m.pixel x y) (ofMachine log m) := by
  simp only [pixel, bind_apply, look_apply, display_ofMachine, pure_apply, Machine.pixel]
  congr 1
  by_cases hin : x < 64 ∧ y < 32
  · obtain ⟨hx, hy⟩ := hin
    have hcell : ((cells m.display)[y]?.bind fun row => row[x]?) =
        some (flag (m.display.pixel x y)) := by
      rw [← getElem_cells m.display hx hy]
      simp [hx, hy]
    rw [hcell]
    cases m.display.pixel x y with
    | true => rfl
    | false => rfl
  · have hout : 64 ≤ x ∨ 32 ≤ y := by omega
    have hcell : ((cells m.display)[y]?.bind fun row => row[x]?) = none := by
      rcases hout with hx | hy
      · simp [hx]
      · simp [hy]
    rw [hcell, m.display.pixel_eq_false hout, Option.any_none]

theorem registerAt_ofMachine (x : Nat) :
    registerAt x (ofMachine log m) = .done (m.register x) (ofMachine log m) := by
  have hmask : x &&& 0xF = x % 16 := Nat.and_two_pow_sub_one_eq_mod x 4
  have hlt : x % 16 < 16 := Nat.mod_lt x (by decide)
  rw [registerAt, hmask, register_apply _ hlt, Machine.register, Vector.getElem?_eq_getElem hlt,
    Option.getD_some]
  rfl

end Hardware

end Chip8
