import Chip8.Fault
import Chip8.Proofs.Numerals

/-!
# Texts of faults

The text of a fault tells which fault it is. The fixed words in front of the first number are those
of one kind of fault only, and a numeral can be read back, also where it has more digits than it is
padded to.
-/

namespace Chip8

namespace Fault

/-! ## Kinds of faults -/

/-- The fixed words with which the text begins. -/
def opening : Fault → String
  | romTooLarge _ _ => "ROM is too large ("
  | illegalOpcode _ => "illegal opcode 0x"
  | stackOverflow _ => "stack overflow calling subroutine at 0x"
  | stackUnderflow => "stack underflow: return with an empty call stack"
  | pcOutOfBounds _ => "program counter 0x"
  | memoryOutOfBounds _ => "memory access out of bounds at address 0x"

/-- The text from its first number on. -/
def details : Fault → String
  | romTooLarge size limit =>
      toString size ++ (" bytes), at most " ++ (toString limit ++ " bytes fit in memory"))
  | illegalOpcode opcode => Hex.padded 4 opcode.toNat
  | stackOverflow target => Hex.padded 3 target.toNat
  | stackUnderflow => ""
  | pcOutOfBounds pc => Hex.padded 4 pc.toNat ++ " is outside of memory"
  | memoryOutOfBounds address => Hex.padded 4 address

theorem message_eq (f : Fault) : f.message = f.opening ++ f.details := by
  cases f with
  | romTooLarge size limit =>
      calc
        (romTooLarge size limit).message
          = "ROM is too large (" ++ toString size ++ " bytes), at most " ++ toString limit ++
              " bytes fit in memory" := rfl
        _ = (romTooLarge size limit).opening ++ (romTooLarge size limit).details := by
              rw [String.append_assoc, String.append_assoc, String.append_assoc, opening, details]
  | pcOutOfBounds pc => exact String.append_assoc
  | stackUnderflow => exact String.append_empty.symm
  | illegalOpcode _ | stackOverflow _ | memoryOutOfBounds _ => rfl

/-- The openings of all six kinds. -/
def openings : List String :=
  [romTooLarge 0 0, illegalOpcode 0, stackOverflow 0, stackUnderflow, pcOutOfBounds 0,
    memoryOutOfBounds 0].map opening

theorem opening_mem (f : Fault) : f.opening ∈ openings := by
  cases f with
  | _ => simp [opening, openings]

/-- No opening is the beginning of another one. -/
theorem prefixFree_openings :
    ∀ s ∈ openings, ∀ t ∈ openings, s.toList <+: t.toList → s = t := by
  decide

theorem opening_eq_of_message_eq {f g : Fault} (h : f.message = g.message) :
    f.opening = g.opening := by
  have hbegins : ∀ f : Fault, f.opening.toList <+: f.message.toList := by
    intro f
    rw [f.message_eq, String.toList_append]
    exact List.prefix_append _ _
  rcases List.prefix_or_prefix_of_prefix (hbegins f) (h ▸ hbegins g) with hfg | hgf
  · exact prefixFree_openings _ f.opening_mem _ g.opening_mem hfg
  · exact (prefixFree_openings _ g.opening_mem _ f.opening_mem hgf).symm

/-! ## The numbers of a fault -/

/-- Among faults of one kind the numbers in the text tell the fault. -/
theorem eq_of_details_eq {f g : Fault} (hopening : f.opening = g.opening)
    (hdetails : f.details = g.details) : f = g := by
  cases f with
  | romTooLarge size limit =>
      cases g with
      | romTooLarge size' limit' =>
          -- each of the two numbers ends at the blank in front of "bytes"
          obtain ⟨rfl, hrest⟩ := (toString_append_inj (by simp) (by simp)).1 hdetails
          have hlimit := (String.append_right_inj _).1 hrest
          obtain ⟨rfl, -⟩ := (toString_append_inj (by simp) (by simp)).1 hlimit
          rfl
      | _ => simp [opening] at hopening
  | illegalOpcode opcode =>
      cases g with
      | illegalOpcode opcode' => rw [UInt16.toNat_inj.1 (Hex.padded_inj.1 hdetails)]
      | _ => simp [opening] at hopening
  | stackOverflow target =>
      cases g with
      | stackOverflow target' => rw [UInt16.toNat_inj.1 (Hex.padded_inj.1 hdetails)]
      | _ => simp [opening] at hopening
  | stackUnderflow =>
      cases g with
      | stackUnderflow => rfl
      | _ => simp [opening] at hopening
  | pcOutOfBounds pc =>
      cases g with
      | pcOutOfBounds pc' =>
          have hnumeral := (String.append_left_inj _).1 hdetails
          rw [UInt16.toNat_inj.1 (Hex.padded_inj.1 hnumeral)]
      | _ => simp [opening] at hopening
  | memoryOutOfBounds address =>
      cases g with
      | memoryOutOfBounds address' => rw [Hex.padded_inj.1 hdetails]
      | _ => simp [opening] at hopening

theorem eq_of_message_eq {f g : Fault} (h : f.message = g.message) : f = g := by
  have hopening : f.opening = g.opening := opening_eq_of_message_eq h
  rw [f.message_eq, g.message_eq, hopening] at h
  exact eq_of_details_eq hopening ((String.append_right_inj _).1 h)

/-- Two faults with the same text are the same fault: the text tells the kind and every number. -/
theorem message_eq_iff (f g : Fault) : f.message = g.message ↔ f = g :=
  ⟨eq_of_message_eq, fun h => by rw [h]⟩

end Fault

end Chip8
