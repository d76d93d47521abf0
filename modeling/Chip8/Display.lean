/-!
# The display

64 by 32 pixels. A row is a word whose most significant bit is column zero. A sprite is a list of
bytes, one to a row and eight pixels wide, with its corner on the screen; what sticks out at the
right or the bottom is not drawn.
-/

namespace Chip8

/-! ## Sprites -/

structure Sprite where
  column : Nat
  row : Nat
  bytes : List UInt8

namespace Sprite

/-- Does the sprite set the pixel at column `x`, row `y`? The first pixel of a byte is its most
significant bit. -/
def covers (s : Sprite) (x y : Nat) : Bool :=
  s.row ≤ y && s.column ≤ x && (s.bytes[y - s.row]?.getD 0).toBitVec.getMsbD (x - s.column)

/-- The pixels that the sprite sets in row `y` of the screen. -/
def mask (s : Sprite) (y : Nat) : BitVec 64 :=
  if s.row ≤ y then
    ((s.bytes[y - s.row]?.getD 0).toBitVec.setWidth 64 <<< 56) >>> s.column
  else 0

theorem getMsbD_mask (s : Sprite) {x : Nat} (y : Nat) (h : x < 64) :
    (s.mask y).getMsbD x = s.covers x y := by
  by_cases hrow : s.row ≤ y
  · by_cases hcolumn : s.column ≤ x
    · by_cases hbyte : x - s.column < 8
      · have hbit : s.column + (63 - x) - 56 = 7 - (x - s.column) := by omega
        have hlow : s.column + (63 - x) < 64 := by omega
        have hhigh : ¬s.column + (63 - x) < 56 := by omega
        simp [mask, covers, hrow, hcolumn, hbyte, h, BitVec.getMsbD_eq_getLsbD, hbit, hlow, hhigh]
      · simp [mask, covers, hrow, hcolumn, hbyte, h, BitVec.getMsbD_eq_getLsbD]
        omega
    · simp [mask, covers, hrow, hcolumn, Nat.lt_of_not_le hcolumn]
  · simp [mask, covers, hrow]

end Sprite

/-! ## The screen -/

abbrev Display.width : Nat := 64

abbrev Display.height : Nat := 32

structure Display where
  rows : Vector (BitVec Display.width) Display.height
  deriving DecidableEq

namespace Display

def blank : Display := ⟨Vector.replicate height 0⟩

/-- Is the pixel at column `x`, row `y` lit? Outside of the screen none is. -/
def pixel (d : Display) (x y : Nat) : Bool := (d.rows[y]?.getD 0).getMsbD x

/-- Flip every pixel that the sprite sets. -/
def toggle (d : Display) (s : Sprite) : Display :=
  ⟨d.rows.mapIdx fun y row => row ^^^ s.mask y⟩

/-- Does the sprite set a pixel that is lit? -/
def collides (d : Display) (s : Sprite) : Bool :=
  (d.rows.mapIdx fun y row => row &&& s.mask y).any (· != 0)

@[simp] theorem pixel_blank (x y : Nat) : blank.pixel x y = false := by
  by_cases hy : y < 32 <;> simp [pixel, blank, hy]

theorem pixel_eq_false (d : Display) {x y : Nat} (h : 64 ≤ x ∨ 32 ≤ y) : d.pixel x y = false := by
  rcases h with h | h <;> simp [pixel, h]

/-- Two screens with the same pixels are the same. -/
theorem ext_pixel {d e : Display} (h : ∀ x < 64, ∀ y < 32, d.pixel x y = e.pixel x y) :
    d = e := by
  have hrows : d.rows = e.rows := by
    apply Vector.ext
    intro y hy
    apply BitVec.eq_of_getMsbD_eq
    intro x hx
    simpa [pixel, hy] using h x hx y hy
  cases d
  cases e
  cases hrows
  rfl

theorem pixel_toggle (d : Display) (s : Sprite) {x y : Nat} (hx : x < 64) (hy : y < 32) :
    (d.toggle s).pixel x y = (d.pixel x y ^^ s.covers x y) := by
  simp [pixel, toggle, hy, ← s.getMsbD_mask y hx]

theorem ne_zero_iff_getMsbD (w : BitVec 64) : w ≠ 0 ↔ ∃ x < 64, w.getMsbD x := by
  constructor
  · intro h
    apply Classical.byContradiction
    intro hall
    apply h
    apply BitVec.eq_of_getMsbD_eq
    intro x hx
    have hoff : ¬w.getMsbD x := fun hbit => hall ⟨x, hx, hbit⟩
    simpa using hoff
  · rintro ⟨x, -, hbit⟩ rfl
    simp at hbit

theorem collides_iff (d : Display) (s : Sprite) :
    d.collides s ↔ ∃ x < 64, ∃ y < 32, d.pixel x y ∧ s.covers x y := by
  have hbit {x y : Nat} (hx : x < 64) (hy : y < 32) :
      (d.rows[y] &&& s.mask y).getMsbD x ↔ d.pixel x y ∧ s.covers x y := by
    simp [pixel, hy, ← s.getMsbD_mask y hx]
  simp only [collides, Vector.any_eq_true, Vector.getElem_mapIdx, bne_iff_ne,
    ne_zero_iff_getMsbD]
  constructor
  · rintro ⟨y, hy, x, hx, h⟩
    exact ⟨x, hx, y, hy, (hbit hx hy).1 h⟩
  · rintro ⟨x, hx, y, hy, h⟩
    exact ⟨y, hy, x, hx, (hbit hx hy).2 h⟩

end Display

end Chip8
