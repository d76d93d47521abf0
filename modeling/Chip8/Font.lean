import Chip8.Memory

/-!
# The hexadecimal font

Sixteen glyphs, four pixels wide and five high, one byte to a row with the pixels in the high
nibble. The glyph of digit `d` is the five bytes from `5 * d` on.
-/

namespace Chip8.Font

abbrev glyphSize : Nat := 5

def glyphs : List UInt8 :=
  [0xF0, 0x90, 0x90, 0x90, 0xF0, -- 0
   0x20, 0x60, 0x20, 0x20, 0x70, -- 1
   0xF0, 0x10, 0xF0, 0x80, 0xF0, -- 2
   0xF0, 0x10, 0xF0, 0x10, 0xF0, -- 3
   0x90, 0x90, 0xF0, 0x10, 0x10, -- 4
   0xF0, 0x80, 0xF0, 0x10, 0xF0, -- 5
   0xF0, 0x80, 0xF0, 0x90, 0xF0, -- 6
   0xF0, 0x10, 0x20, 0x40, 0x40, -- 7
   0xF0, 0x90, 0xF0, 0x90, 0xF0, -- 8
   0xF0, 0x90, 0xF0, 0x10, 0xF0, -- 9
   0xF0, 0x90, 0xF0, 0x90, 0x90, -- A
   0xE0, 0x90, 0xE0, 0x90, 0xE0, -- B
   0xF0, 0x80, 0x80, 0x80, 0xF0, -- C
   0xE0, 0x90, 0x90, 0x90, 0xE0, -- D
   0xF0, 0x80, 0xF0, 0x80, 0xF0, -- E
   0xF0, 0x80, 0xF0, 0x80, 0x80] -- F

/-- Where the glyph of `digit` starts. A value above fifteen is not reduced: its address lies
behind the font. -/
def glyphAddress (digit : UInt8) : UInt16 :=
  digit.toUInt16 * .ofNat glyphSize

/-- The buffer with the font in front, or `none` if the font does not fit. -/
def install? (buffer : List UInt8) : Option (List UInt8) :=
  if glyphs.length ≤ buffer.length then some (glyphs ++ buffer.drop glyphs.length) else none

@[simp] theorem length_glyphs : glyphs.length = 80 := rfl

theorem toNat_glyphAddress (digit : UInt8) : (glyphAddress digit).toNat = 5 * digit.toNat := by
  have := digit.toNat_lt
  simp only [glyphAddress, UInt16.toNat_mul, UInt8.toNat_toUInt16, UInt16.toNat_ofNat', glyphSize]
  omega

/-! ## Installing the font -/

theorem install?_eq_none_iff (buffer : List UInt8) :
    install? buffer = none ↔ buffer.length < 80 := by
  rw [install?, ite_eq_right_iff, length_glyphs]
  simp

/-- Installing the font in the bytes of a memory is storing it at address 0. -/
theorem install?_toList (m : Memory) :
    install? m.bytes.toList = some (m.store 0 glyphs).bytes.toList := by
  have hroom : glyphs.length ≤ m.bytes.toList.length := by
    rw [Vector.length_toList]
    decide
  rw [install?, if_pos hroom, Option.some_inj]
  apply List.ext_getElem?
  intro a
  by_cases ha : a < 4096
  · rw [Memory.getElem?_toList _ ha, Memory.read_store]
    by_cases hfont : a < glyphs.length
    · rw [List.getElem?_append_left hfont, if_pos ⟨Nat.zero_le a, by omega, ha⟩, Nat.sub_zero,
        List.getElem?_eq_getElem hfont, Option.getD_some]
    · have hle : glyphs.length ≤ a := Nat.le_of_not_lt hfont
      rw [List.getElem?_append_right hle, List.getElem?_drop, Nat.add_sub_cancel' hle,
        if_neg (by omega), Memory.getElem?_toList _ ha]
  · have hout : 4096 ≤ a := Nat.le_of_not_lt ha
    rw [List.getElem?_eq_none, List.getElem?_eq_none]
    · simpa using hout
    · rw [List.length_append, List.length_drop, Nat.add_sub_cancel' hroom]
      simpa using hout

end Chip8.Font
