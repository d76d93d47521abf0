import Chip8.Proofs.Footprint
import Chip8.Proofs.Opcodes

/-!
# Assembled programs

A program without jumps, calls, skips and key waits is loaded as the bytes of its opcodes. As long
as no store touches these bytes, the steps of the machine execute the instructions of the program
one after the other.
-/

namespace Chip8

/-- The two bytes of an opcode, the high one first. -/
def Opcode.bytes (opcode : UInt16) : List UInt8 := [(opcode >>> 8).toUInt8, opcode.toUInt8]

namespace Instruction

/-- The machine goes on right behind the instruction in any case. -/
def isStraight : Instruction → Bool
  | ret | jump _ | call _ | jumpOffset _ | skipIfEqualByte _ _ | skipIfNotEqualByte _ _
  | skipIfEqual _ _ | skipIfNotEqual _ _ | skipIfKeyPressed _ | skipIfKeyNotPressed _
  | waitForKey _ => false
  | _ => true

/-- The bytes of a program. Beside each instruction stands the nibble to put where its opcode has
one that is not read. -/
def assemble (program : List (Fin 16 × Instruction)) : List UInt8 :=
  program.flatMap fun p => Opcode.bytes (encode p.1 p.2)

theorem assemble_cons (p : Fin 16 × Instruction) (rest : List (Fin 16 × Instruction)) :
    assemble (p :: rest) =
      (encode p.1 p.2 >>> 8).toUInt8 :: (encode p.1 p.2).toUInt8 :: assemble rest := rfl

theorem length_assemble (program : List (Fin 16 × Instruction)) :
    (assemble program).length = 2 * program.length := by
  induction program with
  | nil => rfl
  | cons p rest ih =>
      simp only [assemble_cons, List.length_cons, ih]
      omega

end Instruction

open Instruction

/-- The address, the opcode and the instruction that an event reports to be executed. -/
def Event.traced? : Event → Option (Nat × UInt16 × Instruction)
  | .executing pc opcode i _ => some (pc.toNat, opcode, i)
  | _ => none

def Moment.stored (t : Moment) : List Nat :=
  match t.deed with
  | .executed i => t.before.stored i
  | _ => []

/-! ## Programs in memory -/

namespace Memory

/-- The two bytes from `a` on as one word, the high one first. -/
def word (m : Memory) (a : Nat) : UInt16 :=
  .ofNat (256 * (m.read a).toNat + (m.read (a + 1)).toNat)

/-- The opcodes of the program stand in memory from `a` on. -/
def Holds (m : Memory) : Nat → List (Fin 16 × Instruction) → Prop
  | _, [] => True
  | a, p :: rest => m.word a = encode p.1 p.2 ∧ m.Holds (a + 2) rest

theorem Holds.congr {m n : Memory} {a : Nat} {program : List (Fin 16 × Instruction)}
    (h : m.Holds a program)
    (hread : ∀ b, a ≤ b → b < a + 2 * program.length → n.read b = m.read b) :
    n.Holds a program := by
  induction program generalizing a with
  | nil => trivial
  | cons p rest ih =>
      simp only [List.length_cons] at hread
      refine ⟨?_, ih h.2 fun b hb hlast => hread b (by omega) (by omega)⟩
      have hword : n.word a = m.word a := by
        rw [word, word, hread a (by omega) (by omega), hread (a + 1) (by omega) (by omega)]
      exact hword.trans h.1

theorem ofNat_bytes (opcode : UInt16) :
    UInt16.ofNat (256 * (opcode >>> 8).toUInt8.toNat + opcode.toUInt8.toNat) = opcode := by
  have hlt := opcode.toNat_lt
  apply UInt16.toNat_inj.1
  simp only [UInt16.toNat_ofNat', UInt16.toNat_toUInt8, UInt16.toNat_shiftRight,
    UInt16.reduceToNat, Nat.reduceMod, Nat.shiftRight_eq_div_pow, Nat.reducePow]
  omega

theorem holds_store (m : Memory) {a : Nat} {program : List (Fin 16 × Instruction)}
    (h : a + 2 * program.length ≤ 4096) : (m.store a (assemble program)).Holds a program := by
  induction program generalizing m a with
  | nil => trivial
  | cons p rest ih =>
      simp only [List.length_cons] at h
      rw [assemble_cons, store, store]
      refine ⟨?_, ih _ (by omega)⟩
      have hhigh : a < 4096 := by omega
      have hlow : a + 1 < 4096 := by omega
      have hbehind : ∀ b < a + 2, ¬(a + 1 + 1 ≤ b ∧
          b < a + 1 + 1 + (assemble rest).length ∧ b < 4096) := by omega
      rw [word, read_store, if_neg (hbehind a (by omega)), read_store,
        if_neg (hbehind (a + 1) (by omega))]
      simp only [read_write, hhigh, hlow, and_true, if_true, Nat.succ_ne_self, Nat.left_eq_add,
        one_ne_zero, if_false]
      exact ofNat_bytes _

end Memory

namespace Machine

/-- A new machine with this program in its memory. -/
def booted (seed : UInt64) (program : List (Fin 16 × Instruction)) : Machine :=
  (withSeed seed).after [.load (assemble program)]

theorem load_assemble (m : Machine) {program : List (Fin 16 × Instruction)}
    (h : program.length ≤ 1792) :
    (m.load (assemble program)).fault = none ∧
      (m.load (assemble program)).machine =
        { m with memory := m.memory.store 0x200 (assemble program), pc := 0x200 } := by
  have hfits : (assemble program).length ≤ 3584 := by
    rw [length_assemble]
    omega
  rw [m.load_of_le hfits]
  exact ⟨rfl, rfl⟩

/-! ## One step -/

theorem nextPc_of_isStraight (m : Machine) {i : Instruction} (h : i.isStraight = true) :
    m.nextPc i = m.pc + 2 := by
  cases i with
  | ret | jump _ | call _ | jumpOffset _ | skipIfEqualByte _ _ | skipIfNotEqualByte _ _
  | skipIfEqual _ _ | skipIfNotEqual _ _ | skipIfKeyPressed _ | skipIfKeyNotPressed _
  | waitForKey _ => cases h
  | _ => rfl

theorem traced_step {m : Machine} {i : Instruction} (hnext : m.next? = .ok i)
    (hfault : m.fault? i = none) :
    m.step.log.filterMap Event.traced? = [(m.pc.toNat, m.opcode, i)] := by
  obtain ⟨opcode, hfetch, -, hstep⟩ := step_of_next?_eq_ok hnext
  obtain rfl : m.opcode = opcode := by
    rw [fetch_of_le (pc_le_of_next?_eq_ok hnext)] at hfetch
    exact Except.ok.inj hfetch
  have hwaiting : ∀ xs : List (Fin 16),
      (xs.map Event.awaitingKey).filterMap Event.traced? = [] := by
    simp [Event.traced?]
  have hticking : ∀ tone : Bool,
      (if tone then [Event.toneTick] else []).filterMap Event.traced? = [] := by
    intro tone
    cases tone <;> rfl
  rw [hstep, hfault]
  simp only [List.cons_append, List.filterMap_cons, List.filterMap_append, Event.traced?, hwaiting,
    hticking, List.append_nil]

theorem next?_of_word {m : Machine} {unread : Fin 16} {i : Instruction}
    (hpc : m.pc.toNat + 2 ≤ 4096) (hword : m.memory.word m.pc.toNat = encode unread i) :
    m.next? = .ok i := by
  have hdecoded : ofOpcode? m.opcode = some i := by
    rw [show m.opcode = encode unread i from hword, ofOpcode?_encode]
  exact (m.next?_eq_ok_iff i).2 ⟨by omega, hdecoded⟩

/-- A step at an opcode of the program executes its instruction and goes on behind it. -/
theorem step_of_word {m : Machine} {unread : Fin 16} {i : Instruction}
    (hpc : m.pc.toNat + 2 ≤ 4096) (hword : m.memory.word m.pc.toNat = encode unread i)
    (hi : i.isStraight = true) (hok : m.step.fault = none) :
    m.next? = .ok i ∧ m.fault? i = none ∧ m.step.machine.pc.toNat = m.pc.toNat + 2 := by
  have hnext : m.next? = .ok i := next?_of_word hpc hword
  have hfault : m.fault? i = none := (step_fault_of_next? hnext).symm.trans hok
  refine ⟨hnext, hfault, ?_⟩
  have hmachine : m.step.machine.pc = m.nextPc i := by
    rw [machine_step_of_executed hnext hfault]
    rfl
  rw [hmachine, m.nextPc_of_isStraight hi, toNat_add_two (by omega)]

/-- A program stays in memory if the instruction stores nothing into it. -/
theorem holds_advance {m : Machine} {i : Instruction} {a : Nat}
    {program : List (Fin 16 × Instruction)} (h : m.memory.Holds a program)
    (hstored : ∀ b ∈ m.stored i, b < a ∨ a + 2 * program.length ≤ b) :
    (m.advance i).memory.Holds a program := by
  refine h.congr fun b hfirst hlast => (m.footprint_advance i).memory b fun hb => ?_
  have := hstored b hb
  omega

/-! ## A run -/

theorem run_of_holds {m : Machine} {a k : Nat} {program : List (Fin 16 × Instruction)}
    (hpc : m.pc.toNat = a) (hend : a + 2 * program.length ≤ 4096)
    (hholds : m.memory.Holds a program) (hstraight : ∀ p ∈ program, p.2.isStraight = true)
    (hk : k ≤ program.length) (hok : (m.run k).fault = none)
    (hkept : ∀ t ∈ m.steps k, ∀ b ∈ t.stored, b < a ∨ a + 2 * program.length ≤ b) :
    (m.run k).machine.pc.toNat = a + 2 * k ∧
      (m.run k).machine = (program.take k).foldl (fun n p => n.advance p.2) m ∧
      (m.steps k).map (fun t => (t.before.pc.toNat, t.before.opcode, t.deed)) =
        ((program.take k).mapIdx fun n p =>
          (a + 2 * n, encode p.1 p.2, Deed.executed p.2)) ∧
      (m.run k).log.filterMap Event.traced? =
        (program.take k).mapIdx fun n p => (a + 2 * n, encode p.1 p.2, p.2) := by
  -- a step drops the first instruction, and what is left of the program starts two bytes later
  induction k generalizing m a program with
  | zero => exact ⟨hpc, rfl, rfl, rfl⟩
  | succ k ih =>
      have hpos : 0 < program.length := Nat.lt_of_lt_of_le k.succ_pos hk
      obtain ⟨⟨unread, i⟩, rest, rfl⟩ := List.exists_cons_of_length_pos hpos
      subst hpc
      simp only [List.length_cons] at hend hk hkept
      obtain ⟨hword, hholds⟩ := hholds
      obtain ⟨hi, hstraight⟩ := List.forall_mem_cons.1 hstraight
      obtain ⟨hstep, hrest, hrun, hsteps⟩ := run_succ_of_fault_eq_none hok
      obtain ⟨hnext, hfault, hpc⟩ := step_of_word (by omega) hword hi hstep
      rw [hsteps, stepDeed_of_executed hnext hfault] at hkept
      obtain ⟨hnow, hkept⟩ := List.forall_mem_cons.1 hkept
      have hholds' : m.step.machine.memory.Holds (m.pc.toNat + 2) rest := by
        rw [machine_step_of_executed hnext hfault]
        refine holds_advance hholds fun b hb => ?_
        have := hnow b hb
        omega
      obtain ⟨hpc', hmachine, hdeeds, htraced⟩ := ih hpc (by omega) hholds' hstraight (by omega)
        hrest fun t ht b hb => by
          have := hkept t ht b hb
          omega
      have haddress : ∀ n, m.pc.toNat + 2 + 2 * n = m.pc.toNat + 2 * (n + 1) := by omega
      simp only [haddress] at hdeeds htraced
      refine ⟨?_, ?_, ?_, ?_⟩
      · rw [hrun]
        exact hpc'.trans (haddress k)
      · rw [hrun, List.take_succ_cons, List.foldl_cons, ← machine_step_of_executed hnext hfault]
        exact hmachine
      · rw [hsteps, List.map_cons, hdeeds, stepDeed_of_executed hnext hfault, List.take_succ_cons,
          List.mapIdx_cons, ← hword]
        rfl
      · rw [hrun, Outcome.after, List.filterMap_append, traced_step hnext hfault, htraced,
          List.take_succ_cons, List.mapIdx_cons, ← hword]
        rfl

/-- A program that fits, without jumps, calls, skips and key waits: if the first `k` steps succeed
and none of them stores into the program, they execute its first `k` instructions in order, which
is also what their events report. They leave what these instructions make of the machine, each of
them after the one before, with the program counter right behind them. -/
theorem run_executes_assembled (seed : UInt64) (program : List (Fin 16 × Instruction)) (k : Nat)
    (hsize : program.length ≤ 1792) (hstraight : ∀ p ∈ program, p.2.isStraight = true)
    (hk : k ≤ program.length) (hok : ((booted seed program).run k).fault = none)
    (hkept : ∀ t ∈ (booted seed program).steps k, ∀ a ∈ t.stored,
      ¬(0x200 ≤ a ∧ a < 0x200 + 2 * program.length)) :
    let m := booted seed program
    ((withSeed seed).load (assemble program)).fault = none ∧
      (m.run k).machine.pc.toNat = 0x200 + 2 * k ∧
      (m.run k).machine = (program.take k).foldl (fun n p => n.advance p.2) m ∧
      (m.steps k).map (fun t => (t.before.pc.toNat, t.before.opcode, t.deed)) =
        ((program.take k).mapIdx fun n p =>
          (0x200 + 2 * n, encode p.1 p.2, Deed.executed p.2)) ∧
      (m.run k).log.filterMap Event.traced? =
        (program.take k).mapIdx fun n p => (0x200 + 2 * n, encode p.1 p.2, p.2) := by
  intro m
  obtain ⟨hload, hloaded⟩ := load_assemble (withSeed seed) hsize
  have hm : m = { withSeed seed with
      memory := (withSeed seed).memory.store 0x200 (assemble program)
      pc := 0x200 } := hloaded
  have hpc : m.pc.toNat = 0x200 := by
    rw [hm]
    rfl
  have hholds : m.memory.Holds 0x200 program := by
    rw [hm]
    exact Memory.holds_store _ (by omega)
  refine ⟨hload, run_of_holds hpc (by omega) hholds hstraight hk hok ?_⟩
  intro t ht a ha
  have := hkept t ht a ha
  omega

/-- Digits and registers that are stored right behind the program leave it as it is. -/
theorem run_executes_assembled_stores :
    let program : List (Fin 16 × Instruction) :=
      [(0, .loadByte 0 0xFE), (9, .shiftRight 0), (0, .loadIndex 0x20A), (0, .storeBcd 0),
        (0, .storeRegisters 0xF)]
    let m := booted 7 program
    (m.run 5).fault = none ∧
      (∀ t ∈ m.steps 5, ∀ a ∈ t.stored, ¬(0x200 ≤ a ∧ a < 0x200 + 2 * program.length)) ∧
      (m.run 5).machine.pc.toNat = 0x20A ∧
      (m.run 5).machine = ((((m.advance (.loadByte 0 0xFE)).advance (.shiftRight 0)).advance
        (.loadIndex 0x20A)).advance (.storeBcd 0)).advance (.storeRegisters 0xF) ∧
      (m.steps 5).map (fun t => (t.before.pc.toNat, t.before.opcode, t.deed)) =
        [(0x200, 0x60FE, .executed (.loadByte 0 0xFE)), (0x202, 0x8096, .executed (.shiftRight 0)),
          (0x204, 0xA20A, .executed (.loadIndex 0x20A)), (0x206, 0xF033, .executed (.storeBcd 0)),
          (0x208, 0xFF55, .executed (.storeRegisters 0xF))] := by
  intro program m
  have hrun : (m.run 5).fault = none ∧
      ∀ t ∈ m.steps 5, ∀ a ∈ t.stored, ¬(0x200 ≤ a ∧ a < 0x200 + 2 * program.length) := by
    decide +kernel
  obtain ⟨hok, hkept⟩ := hrun
  obtain ⟨-, hpc, hmachine, hsteps, -⟩ :=
    run_executes_assembled 7 program 5 (by decide) (by decide) (by decide) hok hkept
  exact ⟨hok, hkept, hpc, hmachine, hsteps⟩

end Machine

end Chip8
