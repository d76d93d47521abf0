import Chip8.Machine.Outcome

/-!
# Loading a program

A program is copied to `programStart`, and the program counter is set to its first byte. One that
does not fit changes nothing and is not reported as an event.
-/

namespace Chip8.Machine

def load (m : Machine) (program : List UInt8) : Outcome :=
  if programLimit < program.length then
    ⟨m, some (.romTooLarge program.length programLimit), []⟩
  else
    ⟨{ m with memory := m.memory.store programStart.toNat program, pc := programStart }, none,
      [.loaded program.length]⟩

theorem load_of_gt (m : Machine) {program : List UInt8} (hlarge : 3584 < program.length) :
    m.load program = ⟨m, some (.romTooLarge program.length 3584), []⟩ := by
  rw [load, programLimit_eq, if_pos hlarge]

theorem load_of_le (m : Machine) {program : List UInt8} (hfits : program.length ≤ 3584) :
    m.load program =
      ⟨{ m with memory := m.memory.store 0x200 program, pc := 0x200 }, none,
        [.loaded program.length]⟩ := by
  rw [load, programLimit_eq, if_neg (Nat.not_lt.2 hfits)]
  rfl

end Chip8.Machine
