import Chip8.Proofs.Safety
import Chip8.Proofs.Timeline
import Mathlib.Algebra.Ring.Parity

/-!
# What the screen shows

A draw flips the pixels that its sprite covers, and nothing but a draw, a clearing and a reset
touches the screen. So a pixel is lit if it was covered an odd number of times since the screen
was last blank.
-/

namespace Chip8

namespace Moment

/-- Did the deed turn every pixel off? -/
def blanks (t : Moment) : Bool :=
  match t.deed with
  | .reset | .executed .clearScreen => true
  | _ => false

/-- Did the deed draw a sprite whose pixels, clipped to the screen, cover column `x`, row `y`? -/
def covers (t : Moment) (x y : Nat) : Bool :=
  match t.deed with
  | .executed (.draw vx vy n) =>
      let column := (t.before.v vx).toNat % 64
      let row := (t.before.v vy).toNat % 32
      let byte := t.before.memory.read (t.before.index.toNat + (y - row))
      decide (row ≤ y ∧ y < row + n ∧ column ≤ x ∧ x < column + 8) &&
        byte.toNat.testBit (7 - (x - column))
  | _ => false

end Moment

/-- How many draws covered the pixel since the screen was last blank. -/
def coverings (past : List Moment) (x y : Nat) : Nat :=
  (past.reverse.takeWhile fun t => !t.blanks).countP fun t => t.covers x y

theorem coverings_snoc (past : List Moment) (t : Moment) (x y : Nat) :
    coverings (past ++ [t]) x y =
      if t.blanks then 0 else coverings past x y + if t.covers x y then 1 else 0 := by
  simp only [coverings, List.reverse_append, List.reverse_singleton, List.singleton_append]
  cases hblanks : t.blanks with
  | true => simp [hblanks]
  | false => simp [hblanks, List.countP_cons]

namespace Machine

/-! ## One deed -/

theorem getMsbD_slice (memory : Memory) (base len k j : Nat) :
    ((memory.slice base len)[k]?.getD 0).toBitVec.getMsbD j =
      (decide (k < len ∧ j < 8) && (memory.read (base + k)).toNat.testBit (7 - j)) := by
  by_cases hk : k < len
  · rw [Memory.getElem?_slice _ _ hk, Option.getD_some, BitVec.getMsbD_eq_getLsbD]
    simp [hk, ← BitVec.testBit_toNat]
  · simp [hk]

theorem covers_sprite (m : Machine) (vx vy n : Fin 16) (x y : Nat) :
    (m.sprite vx vy n).covers x y =
      Moment.covers ⟨m, .executed (.draw vx vy n)⟩ x y := by
  simp only [Moment.covers, Sprite.covers, sprite, getMsbD_slice, Display.width, Display.height]
  rw [Bool.eq_iff_iff]
  simp only [Bool.and_eq_true, decide_eq_true_eq]
  constructor
  · rintro ⟨⟨hrow, hcolumn⟩, ⟨hheight, hwidth⟩, hbit⟩
    exact ⟨⟨of_decide_eq_true hrow, by omega, of_decide_eq_true hcolumn, by omega⟩, hbit⟩
  · rintro ⟨⟨hrow, hheight, hcolumn, hwidth⟩, hbit⟩
    exact ⟨⟨decide_eq_true hrow, decide_eq_true hcolumn⟩, ⟨by omega, by omega⟩, hbit⟩

theorem display_effect (m : Machine) (i : Instruction) :
    (m.effect i).display =
      match i with
      | .clearScreen => .blank
      | .draw x y n => m.display.toggle (m.sprite x y n)
      | _ => m.display := by
  cases i with
  | waitForKey x => rw [effect_waitForKey]
  | _ => rfl

theorem pixel_afterDeed (m : Machine) (deed : Deed) {x y : Nat} (hx : x < 64) (hy : y < 32) :
    (m.afterDeed deed).pixel x y =
      (!Moment.blanks ⟨m, deed⟩ && (m.pixel x y ^^ Moment.covers ⟨m, deed⟩ x y)) := by
  cases deed with
  | executed i =>
      have hadvance : (m.afterDeed (.executed i)).pixel x y = (m.effect i).display.pixel x y := rfl
      rw [hadvance, display_effect]
      cases i with
      | clearScreen => simp [Moment.blanks]
      | draw vx vy n =>
          simp [Moment.blanks, Display.pixel_toggle _ _ hx hy, covers_sprite, pixel]
      | _ => simp [Moment.blanks, Moment.covers, pixel]
  | reset => simp [Moment.blanks, afterDeed, reset, powerOn, pixel]
  | _ => simp [Moment.blanks, Moment.covers, afterDeed, pixel]

/-! ## Whole histories -/

theorem pixel_iff_of_lt (random : Random.Generator) (history : List Call) {x y : Nat} (hx : x < 64)
    (hy : y < 32) :
    ((powerOn random).after history).pixel x y = true ↔
      Odd (coverings ((powerOn random).timeline history) x y) := by
  refine timeline_invariant (P := fun past m => m.pixel x y = true ↔ Odd (coverings past x y))
    random ?_ ?_ history
  · simp [powerOn, pixel, coverings]
  · intro past m deed _ _ hpast
    rw [pixel_afterDeed m deed hx hy, coverings_snoc]
    cases Moment.blanks ⟨m, deed⟩ with
    | true => simp
    | false =>
        cases Moment.covers ⟨m, deed⟩ x y with
        | true => simp [← hpast, Nat.odd_add_one]
        | false => simp [← hpast]

end Machine

namespace Hardware

/-- A pixel is lit if it is on the screen and was covered by an odd number of draws since the
screen was last blank, and this is what the drawing loops of the hardware leave as well. -/
theorem pixel_iff_odd_coverings (random : Random.Generator) (history : List Call) (x y : Nat) :
    let m := (Machine.powerOn random).after history
    let past := (Machine.powerOn random).timeline history
    (m.pixel x y = true ↔ x < 64 ∧ y < 32 ∧ Odd (coverings past x y)) ∧
      ∃ h, replay random history = some h ∧ pixel x y h = .done (m.pixel x y) h := by
  intro m past
  constructor
  · by_cases hin : x < 64 ∧ y < 32
    · rw [Machine.pixel_iff_of_lt random history hin.1 hin.2]
      simp [hin, past]
    · have hout : 64 ≤ x ∨ 32 ≤ y := by omega
      have hoff : m.pixel x y = false := m.display.pixel_eq_false hout
      rw [hoff]
      exact ⟨fun h => absurd h Bool.false_ne_true, fun h => absurd ⟨h.1, h.2.1⟩ hin⟩
  · obtain ⟨log, hreplay⟩ := replay_eq random history
    exact ⟨_, hreplay, pixel_ofMachine log m x y⟩

end Hardware

end Chip8
