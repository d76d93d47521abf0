import Chip8.Proofs.Pairs
import Chip8.Proofs.Sprites

/-!
# Drawing twice

The second of two equal draws covers the same pixels as the first one, provided that neither of its
coordinates is VF, which the first draw overwrites. So it flips back what the first one has flipped,
and it collides where this one has turned pixels on.
-/

namespace Chip8

namespace Moment

/-- The deed draws on a pixel of the screen that is not lit. -/
def Misses (t : Moment) : Prop :=
  ∃ column < 64, ∃ row < 32, t.before.pixel column row = false ∧ t.covers column row = true

/-- The deed draws on some pixel of the screen. -/
def Shows (t : Moment) : Prop := ∃ column < 64, ∃ row < 32, t.covers column row = true

theorem Shows.hits_or_misses {t : Moment} (h : t.Shows) : t.Hits ∨ t.Misses := by
  obtain ⟨column, hcolumn, row, hrow, hcovers⟩ := h
  cases hlit : t.before.pixel column row with
  | true => exact Or.inl ⟨column, hcolumn, row, hrow, hlit, hcovers⟩
  | false => exact Or.inr ⟨column, hcolumn, row, hrow, hlit, hcovers⟩

end Moment

namespace Machine

theorem flag_drawn_eq_one_iff (m : Machine) (x y n : Fin 16) :
    (m.drawn x y n).v flagRegister = 1 ↔ Moment.Hits ⟨m, .executed (.draw x y n)⟩ := by
  rw [v_drawn, if_pos rfl, Hardware.flag_eq_one_iff, hits_iff_collides]

section again

variable (m : Machine) {x y : Fin 16} (n : Fin 16) (hx : x ≠ flagRegister) (hy : y ≠ flagRegister)

include hx hy

theorem sprite_drawn : (m.drawn x y n).sprite x y n = m.sprite x y n := by
  rw [sprite, v_drawn, v_drawn, if_neg hx, if_neg hy]
  rfl

theorem covers_drawn (column row : Nat) :
    Moment.covers ⟨m.drawn x y n, .executed (.draw x y n)⟩ column row =
      Moment.covers ⟨m, .executed (.draw x y n)⟩ column row := by
  rw [← covers_sprite, ← covers_sprite, m.sprite_drawn n hx hy]

theorem display_drawn_drawn : ((m.drawn x y n).drawn x y n).display = m.display := by
  apply Display.ext_pixel
  intro column hcolumn row hrow
  have honce := (m.draws_drawn x y n).pixel column row hcolumn hrow
  have htwice := ((m.drawn x y n).draws_drawn x y n).pixel column row hcolumn hrow
  rw [m.covers_drawn n hx hy, honce, Bool.xor_assoc, Bool.xor_self, Bool.xor_false] at htwice
  exact htwice

/-- Where the sprite is, a pixel is lit after the first draw if it was not before. -/
theorem hits_drawn_iff_misses :
    Moment.Hits ⟨m.drawn x y n, .executed (.draw x y n)⟩ ↔
      Moment.Misses ⟨m, .executed (.draw x y n)⟩ := by
  have hflipped : ∀ column row, column < 64 → row < 32 →
      Moment.covers ⟨m, .executed (.draw x y n)⟩ column row = true →
        (m.drawn x y n).pixel column row = !m.pixel column row := by
    intro column row hcolumn hrow hcovers
    rw [(m.draws_drawn x y n).pixel column row hcolumn hrow, hcovers, Bool.xor_true]
  constructor
  · rintro ⟨column, hcolumn, row, hrow, hlit, hcovers⟩
    rw [m.covers_drawn n hx hy] at hcovers
    have hunlit := (hflipped column row hcolumn hrow hcovers).symm.trans hlit
    exact ⟨column, hcolumn, row, hrow, by simpa using hunlit, hcovers⟩
  · rintro ⟨column, hcolumn, row, hrow, hunlit, hcovers⟩
    have hlit := (hflipped column row hcolumn hrow hcovers).trans (congrArg not hunlit)
    exact ⟨column, hcolumn, row, hrow, hlit, (m.covers_drawn n hx hy column row).trans hcovers⟩

end again

end Machine

namespace Hardware

/-- A draw that succeeds can be made again, and this restores the screen, if neither coordinate is
VF. The first draw collides if some pixel that the sprite covers was lit, and the second one if some
such pixel was not. So one of them collides unless the sprite covers no pixel of the screen. -/
theorem draw_twice_restores (random : Random.Generator) (history : List Call) {x y n : Fin 16}
    (hx : x ≠ Machine.flagRegister) (hy : y ≠ Machine.flagRegister)
    (hok : ((Machine.powerOn random).after history).fault? (.draw x y n) = none) :
    let m := (Machine.powerOn random).after history
    let t : Moment := ⟨m, .executed (.draw x y n)⟩
    let once := m.drawn x y n
    let twice := once.drawn x y n
    m.InARow (.draw x y n) (.draw x y n) twice ∧ twice.display = m.display ∧
      (once.v Machine.flagRegister = 1 ↔ t.Hits) ∧ (twice.v Machine.flagRegister = 1 ↔ t.Misses) ∧
      (t.Shows → once.v Machine.flagRegister = 1 ∨ twice.v Machine.flagRegister = 1) ∧
      ∃ log h first second, replay random history = some h ∧ h = ofMachine log m ∧
        execute (.draw x y n) h = .done () first ∧ first = ofMachine log once ∧
        execute (.draw x y n) first = .done () second ∧ second = ofMachine log twice ∧
        second.display = h.display := by
  intro m t once twice
  have hm : m.Reachable := ⟨random, history, rfl⟩
  have hrow : m.InARow (.draw x y n) (.draw x y n) twice :=
    Machine.inARow hok hok rfl rfl rfl
  have hdisplay : twice.display = m.display := m.display_drawn_drawn n hx hy
  have hfirst : once.v Machine.flagRegister = 1 ↔ t.Hits := m.flag_drawn_eq_one_iff x y n
  have hsecond : twice.v Machine.flagRegister = 1 ↔ t.Misses :=
    (once.flag_drawn_eq_one_iff x y n).trans (m.hits_drawn_iff_misses n hx hy)
  refine ⟨hrow, hdisplay, hfirst, hsecond, ?_, ?_⟩
  · intro hshows
    exact hshows.hits_or_misses.imp hfirst.2 hsecond.2
  · obtain ⟨log, hreplay⟩ := replay_eq random history
    obtain ⟨hexecute, hexecute'⟩ := hrow.executes hm.bounded.depth_le log
    exact ⟨log, _, _, _, hreplay, rfl, hexecute, rfl, hexecute', rfl, congrArg cells hdisplay⟩

/-- A glyph in the lower right corner of a blank screen, drawn by two instructions in a row: the
second one turns its pixels off again, and it alone reports a collision. -/
theorem draw_twice_restores_corner :
    let history : List Call := [.load [0x61, 0x3E, 0xD1, 0x15, 0xD1, 0x15], .step]
    let m := (Machine.powerOn (.ofSeed 7)).after history
    m.fault? (.draw 1 1 5) = none ∧ (m.drawn 1 1 5).pixel 63 30 = true ∧
      m.step.machine.step.fault = none ∧ m.step.machine.step.machine.display = m.display ∧
      (m.drawn 1 1 5).v Machine.flagRegister = 0 ∧
      ((m.drawn 1 1 5).drawn 1 1 5).v Machine.flagRegister = 1 := by
  intro history m
  have hstate : m.fault? (.draw 1 1 5) = none ∧ m.next? = .ok (.draw 1 1 5) ∧
      m.step.machine.next? = .ok (.draw 1 1 5) ∧ (m.drawn 1 1 5).pixel 63 30 = true ∧
        (m.drawn 1 1 5).v Machine.flagRegister = 0 := by
    decide +kernel
  let t : Moment := ⟨m, .executed (.draw 1 1 5)⟩
  have hcorner : t.before.pixel 63 30 = false ∧ t.covers 63 30 = true := by decide +kernel
  have hmisses : t.Misses := ⟨63, by decide, 30, by decide, hcorner⟩
  obtain ⟨hok, hnext, hnext', hlit, hflag⟩ := hstate
  obtain ⟨hrow, hdisplay, -, hsecond, -⟩ :=
    draw_twice_restores (.ofSeed 7) history (by decide) (by decide) hok
  obtain ⟨-, hok', hmachine⟩ := hrow.steps hnext hnext'
  refine ⟨hok, hlit, hok', ?_, hflag, hsecond.2 hmisses⟩
  rw [hmachine]
  exact hdisplay

/-- With VF as the column, the second draw goes to another place. -/
example :
    let m := (Machine.withSeed 7).setV Machine.flagRegister 9
    ((m.drawn 0xF 0 1).drawn 0xF 0 1).display ≠ m.display := by
  decide +kernel

end Hardware

end Chip8
