import Chip8.Proofs.Safety

/-!
# Loading programs

A program is loaded as a whole or not at all. One that fits replaces the bytes of its own length
from the start of the program area on and sends the machine to the first of them; nothing else
changes, so of an earlier program the bytes behind a shorter later one are still there.
-/

namespace Chip8

namespace Machine

variable {m : Machine} {program : List UInt8}

/-- A load of the program has led from `m` to `after`. -/
structure Loaded (m : Machine) (program : List UInt8) (after : Machine) : Prop where
  image : ∀ i (hi : i < program.length), after.memory.read (0x200 + i) = program[i]
  outside : ∀ a, a < 0x200 ∨ 0x200 + program.length ≤ a →
    after.memory.read a = m.memory.read a
  pc : after.pc = 0x200
  rest : after = { m with memory := after.memory, pc := after.pc }

/-- Loads of one program and of another one have led from `m` to `after`. -/
structure Overlaid (m : Machine) (first second : List UInt8) (after : Machine) : Prop where
  later : ∀ i (hi : i < second.length), after.memory.read (0x200 + i) = second[i]
  earlier : ∀ i (hi : i < first.length), second.length ≤ i →
    after.memory.read (0x200 + i) = first[i]
  behind : ∀ i, first.length ≤ i → second.length ≤ i →
    after.memory.read (0x200 + i) = m.memory.read (0x200 + i)

/-! ## One load -/

/-- The byte that a load of the program puts at position `i` of the program area, if it does. -/
def loadedByte? (program : List UInt8) (i : Nat) : Option UInt8 :=
  if program.length ≤ 3584 then program[i]? else none

theorem loadedByte?_of_lt (hfits : program.length ≤ 3584) {i : Nat} (hi : i < program.length) :
    loadedByte? program i = some program[i] := by
  rw [loadedByte?, if_pos hfits, List.getElem?_eq_getElem hi]

theorem loadedByte?_of_le {i : Nat} (hi : program.length ≤ i) : loadedByte? program i = none := by
  rw [loadedByte?, List.getElem?_eq_none hi, ite_self]

theorem read_load (m : Machine) (program : List UInt8) (i : Nat) :
    (m.load program).machine.memory.read (0x200 + i) =
      (loadedByte? program i).getD (m.memory.read (0x200 + i)) := by
  rcases Nat.lt_or_ge 3584 program.length with hlarge | hfits
  · rw [m.load_of_gt hlarge, loadedByte?, if_neg (Nat.not_le.2 hlarge), Option.getD_none]
  · rw [m.load_of_le hfits, Memory.read_store, Nat.add_sub_cancel_left]
    rcases Nat.lt_or_ge i program.length with hi | hi
    · have hin : 0x200 ≤ 0x200 + i ∧ 0x200 + i < 0x200 + program.length ∧ 0x200 + i < 4096 := by
        omega
      rw [if_pos hin, loadedByte?_of_lt hfits hi, List.getElem?_eq_getElem hi, Option.getD_some,
        Option.getD_some]
    · rw [if_neg (by omega), loadedByte?_of_le hi, Option.getD_none]

theorem loaded_load (hfits : program.length ≤ 3584) :
    m.Loaded program (m.load program).machine where
  image i hi := by rw [read_load, loadedByte?_of_lt hfits hi, Option.getD_some]
  outside a ha := by
    have hout : ¬(0x200 ≤ a ∧ a < 0x200 + program.length ∧ a < 4096) := by omega
    rw [m.load_of_le hfits, Memory.read_store, if_neg hout]
  pc := by rw [m.load_of_le hfits]
  rest := by rw [m.load_of_le hfits]

/-! ## Several loads -/

/-- After any number of loads, a byte of the program area is that of the latest program that fits
and reaches so far. -/
theorem read_after_loads (m : Machine) (programs : List (List UInt8)) (i : Nat) :
    (m.after (programs.map .load)).memory.read (0x200 + i) =
      (programs.reverse.findSome? (loadedByte? · i)).getD (m.memory.read (0x200 + i)) := by
  induction programs generalizing m with
  | nil => rfl
  | cons program rest ih =>
      have hfirst : (m.perform (.load program)).machine.memory.read (0x200 + i) =
          (loadedByte? program i).getD (m.memory.read (0x200 + i)) := m.read_load program i
      rw [List.map_cons, after_cons, ih, hfirst, List.reverse_cons, List.findSome?_append]
      -- the later programs are asked first, and the one loaded here only if none of them answers
      cases rest.reverse.findSome? (loadedByte? · i) with
      | none => rw [Option.getD_none, Option.none_or, List.findSome?_singleton]
      | some b => rfl

theorem overlaid_load {first second : List UInt8} (hfirst : first.length ≤ 3584)
    (hsecond : second.length ≤ 3584) :
    m.Overlaid first second ((m.load first).machine.load second).machine := by
  have hread : ∀ i, ((m.load first).machine.load second).machine.memory.read (0x200 + i) =
      ([second, first].findSome? (loadedByte? · i)).getD (m.memory.read (0x200 + i)) :=
    m.read_after_loads [first, second]
  refine ⟨fun i hi => ?_, fun i hi hle => ?_, fun i hi hle => ?_⟩
  · simp only [hread, List.findSome?_cons, loadedByte?_of_lt hsecond hi, Option.getD_some]
  · simp only [hread, List.findSome?_cons, loadedByte?_of_le hle, loadedByte?_of_lt hfirst hi,
      Option.getD_some]
  · simp only [hread, List.findSome?_cons, loadedByte?_of_le hle, loadedByte?_of_le hi,
      List.findSome?_nil, Option.getD_none]

end Machine

namespace Hardware

/-- A program of more than 3584 bytes is refused, with nothing changed and nothing reported. Any
other one is copied to the program area and started, and all else stays as it is. The hardware,
which copies the bytes and sets the program counter one after the other, does the same. -/
theorem load_is_all_or_nothing (m : Machine) (program : List UInt8) :
    ((m.load program).fault = some (.romTooLarge program.length 3584) ↔ 3584 < program.length) ∧
      (3584 < program.length →
        (m.load program).machine = m ∧ (m.load program).log = [] ∧
          ∀ log, load program (ofMachine log m) =
            .fault (.romTooLarge program.length 3584) (ofMachine log m)) ∧
      (program.length ≤ 3584 →
        (m.load program).fault = none ∧ m.Loaded program (m.load program).machine ∧
          (∀ log, load program (ofMachine log m) =
            .done () (ofMachine (log ++ [.loaded program.length]) (m.load program).machine)) ∧
          ∀ second : List UInt8, second.length ≤ 3584 →
            m.Overlaid program second ((m.load program).machine.load second).machine) := by
  have hload : ∀ log, load program (ofMachine log m) = Result.ofOutcome log (m.load program) :=
    fun log => load_ofMachine log m program
  rcases Nat.lt_or_ge 3584 program.length with hlarge | hfits
  · have hrefused := m.load_of_gt hlarge
    refine ⟨by simp [hrefused, hlarge], fun _ => ⟨by rw [hrefused], by rw [hrefused], ?_⟩,
      fun hfits => absurd hfits (Nat.not_le.2 hlarge)⟩
    intro log
    rw [hload, hrefused, Result.ofOutcome, List.append_nil]
  · have hloaded := m.load_of_le hfits
    refine ⟨by simp [hloaded, hfits], fun hlarge => absurd hlarge (Nat.not_lt.2 hfits),
      fun _ => ⟨by rw [hloaded], Machine.loaded_load hfits, ?_, ?_⟩⟩
    · intro log
      rw [hload, Result.ofOutcome, hloaded]
    · intro second hsecond
      exact Machine.overlaid_load hfits hsecond

/-- A program that ends with the last byte of memory is loaded, and two bytes over it; one byte more
does not fit. -/
theorem load_is_all_or_nothing_last_byte :
    let m := Machine.powerOn (.ofSeed 7)
    let program : List UInt8 := List.replicate 3584 0xAB
    let after := ((m.load program).machine.load [1, 2]).machine
    program.length ≤ 3584 ∧ after.memory.read 0x201 = 2 ∧ after.memory.read 0xFFF = 0xAB ∧
      (m.load (0xCD :: program)).fault = some (.romTooLarge 3585 3584) ∧
        (m.load (0xCD :: program)).machine = m := by
  intro m program after
  have hlength : program.length = 3584 := List.length_replicate
  have hbyte : ∀ i (hi : i < program.length), program[i] = 0xAB := fun i hi =>
    List.getElem_replicate hi
  clear_value program
  have hfits : program.length ≤ 3584 := Nat.le_of_eq hlength
  have hlarge : 3584 < (0xCD :: program).length := by
    rw [List.length_cons, hlength]
    decide
  have hlast : 3583 < program.length := by omega
  obtain ⟨-, -, hloaded⟩ := load_is_all_or_nothing m program
  obtain ⟨hfault, hrefused, -⟩ := load_is_all_or_nothing m (0xCD :: program)
  have hover : m.Overlaid program [1, 2] after := (hloaded hfits).2.2.2 [1, 2] (by decide)
  refine ⟨hfits, hover.later 1 (by decide), ?_, ?_, (hrefused hlarge).1⟩
  · exact (hover.earlier 3583 hlast (by decide)).trans (hbyte 3583 hlast)
  · rw [hfault.2 hlarge, List.length_cons, hlength]

end Hardware

end Chip8
