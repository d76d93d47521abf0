import Chip8.Proofs.Pairs
import Chip8.Proofs.Sprites

/-!
# Glyphs on the screen

A program shows a digit by pointing the index register at its glyph and drawing five bytes from
there. This never fails: the address of a glyph and a sprite behind it are inside of memory for
every value of the register, also for one that is no digit. For a digit it flips the pixels of the
glyph and no others, as long as the font is where it was put.
-/

namespace Chip8

namespace Font

/-- The glyph of digit `d`, with its corner in column `c` and row `r`, sets the pixel in this column
and row. -/
def Inks (d c r column row : Nat) : Prop :=
  ∃ i : Fin 5, ∃ j : Fin 4, row = r + i ∧ column = c + j ∧
    (glyphs[5 * d + i]?.getD 0).toNat.testBit (7 - j) = true

instance (d c r column row : Nat) : Decidable (Inks d c r column row) :=
  inferInstanceAs (Decidable (∃ i : Fin 5, ∃ j : Fin 4, row = r + i ∧ column = c + j ∧
    (glyphs[5 * d + i]?.getD 0).toNat.testBit (7 - j) = true))

/-- A glyph is four pixels wide: its bytes have nothing in the low nibble. -/
theorem testBit_low_nibble (k : Nat) {j : Nat} (hj : j < 4) :
    (glyphs[k]?.getD 0).toNat.testBit j = false := by
  have hall : ∀ byte ∈ glyphs, ∀ j : Fin 4, byte.toNat.testBit j = false := by decide +kernel
  cases hk : glyphs[k]? with
  | none => exact Nat.zero_testBit j
  | some byte => exact hall byte (List.mem_of_getElem? hk) ⟨j, hj⟩

end Font

/-- The font is at the foot of memory. -/
def Memory.HoldsFont (memory : Memory) : Prop :=
  ∀ k < 80, memory.read k = Font.glyphs[k]?.getD 0

namespace Machine

variable (m : Machine) (x a b : Fin 16)

theorem index_executed_loadGlyph :
    (m.executed (.loadGlyph x)).index.toNat = 5 * (m.v x).toNat :=
  Font.toNat_glyphAddress (m.v x)

theorem inARow_loadGlyph_draw (n : Fin 16) :
    m.InARow (.loadGlyph x) (.draw a b n) ((m.executed (.loadGlyph x)).drawn a b n) := by
  have hok : (m.executed (.loadGlyph x)).fault? (.draw a b n) = none := by
    have hlt := (m.v x).toNat_lt
    have hindex := m.index_executed_loadGlyph x
    exact ((m.executed (.loadGlyph x)).fault?_draw_eq_none_iff a b n).2 (Or.inr (by omega))
  exact inARow rfl hok rfl rfl rfl

/-- The sprite that is drawn behind the address of a digit is the glyph of this digit. -/
theorem covers_glyph_iff (hfont : m.memory.HoldsFont) (hdigit : (m.v x).toNat ≤ 15)
    (column row : Nat) :
    Moment.covers ⟨m.executed (.loadGlyph x), .executed (.draw a b 5)⟩ column row = true ↔
      Font.Inks (m.v x).toNat ((m.v a).toNat % 64) ((m.v b).toNat % 32) column row := by
  have hread : ∀ i < 5, (m.executed (.loadGlyph x)).memory.read
      ((m.executed (.loadGlyph x)).index.toNat + i) =
        Font.glyphs[5 * (m.v x).toNat + i]?.getD 0 := by
    intro i hi
    rw [m.index_executed_loadGlyph x]
    exact hfont _ (by omega)
  have hcorner : (m.executed (.loadGlyph x)).v a = m.v a ∧
      (m.executed (.loadGlyph x)).v b = m.v b := ⟨rfl, rfl⟩
  have hfive : ((5 : Fin 16) : Nat) = 5 := rfl
  simp only [Moment.covers, Bool.and_eq_true, decide_eq_true_eq, hcorner, hfive]
  constructor
  · rintro ⟨⟨hrow, hheight, hcolumn, hwidth⟩, hbit⟩
    rw [hread _ (by omega)] at hbit
    -- in the four columns on the right the bit would be in the low nibble
    have hnarrow : column - (m.v a).toNat % 64 < 4 := by
      apply Nat.lt_of_not_le
      intro hmargin
      rw [Font.testBit_low_nibble _ (by omega)] at hbit
      exact Bool.false_ne_true hbit
    exact ⟨⟨row - (m.v b).toNat % 32, by omega⟩, ⟨_, hnarrow⟩, by simp only; omega,
      by simp only; omega, hbit⟩
  · rintro ⟨i, j, rfl, rfl, hbit⟩
    refine ⟨by omega, ?_⟩
    rw [Nat.add_sub_cancel_left, Nat.add_sub_cancel_left, hread i i.isLt]
    exact hbit

end Machine

namespace Hardware

/-- Pointing the index register at the glyph of `Vx` and drawing `n` bytes from there at `(Va, Vb)`
never fails. If the font is in place, `Vx` is a digit and `n` is five, the pixels of the glyph that
are on the screen are flipped, and no others. -/
theorem glyph_is_shown (random : Random.Generator) (history : List Call) (x a b n : Fin 16) :
    let m := (Machine.powerOn random).after history
    let pointed := m.executed (.loadGlyph x)
    let shown := pointed.drawn a b n
    m.InARow (.loadGlyph x) (.draw a b n) shown ∧
      ∃ log h first second, replay random history = some h ∧ h = ofMachine log m ∧
        execute (.loadGlyph x) h = .done () first ∧ first = ofMachine log pointed ∧
        execute (.draw a b n) first = .done () second ∧ second = ofMachine log shown ∧
        (m.memory.HoldsFont → (m.v x).toNat ≤ 15 → n = 5 →
          let inks := Font.Inks (m.v x).toNat ((m.v a).toNat % 64) ((m.v b).toNat % 32)
          ∀ column row, column < 64 → row < 32 →
            (shown.pixel column row =
              if inks column row then !m.pixel column row else m.pixel column row) ∧
            second.cell column row =
              if inks column row then h.cell column row ^^^ 1 else h.cell column row) := by
  intro m pointed shown
  have hm : m.Reachable := ⟨random, history, rfl⟩
  have hpair : m.InARow (.loadGlyph x) (.draw a b n) shown := m.inARow_loadGlyph_draw x a b n
  obtain ⟨log, hreplay⟩ := replay_eq random history
  obtain ⟨hpoint, hdraw⟩ := hpair.executes hm.bounded.depth_le log
  refine ⟨hpair, log, _, _, _, hreplay, rfl, hpoint, rfl, hdraw, rfl, ?_⟩
  intro hfont hdigit hn inks column row hcolumn hrow
  subst hn
  have hpixel : shown.pixel column row = (m.pixel column row ^^
      Moment.covers ⟨pointed, .executed (.draw a b 5)⟩ column row) :=
    (pointed.draws_drawn a b 5).pixel column row hcolumn hrow
  have hcell : (ofMachine log shown).cell column row = (ofMachine log m).cell column row ^^^
      flag (Moment.covers ⟨pointed, .executed (.draw a b 5)⟩ column row) :=
    cell_drawn log pointed a b 5 hcolumn hrow
  have hinks := m.covers_glyph_iff x a b hfont hdigit column row
  rw [hpixel, hcell]
  by_cases hink : inks column row
  · rw [hinks.2 hink, if_pos hink, if_pos hink, Bool.xor_true, flag_true]
    exact ⟨rfl, rfl⟩
  · rw [Bool.eq_false_iff.2 (mt hinks.1 hink), if_neg hink, if_neg hink, Bool.xor_false,
      flag_false, UInt8.xor_zero]
    exact ⟨rfl, rfl⟩

/-- The digit 5 in the lower right corner of a new screen. -/
theorem glyph_is_shown_corner :
    let history : List Call := [.load [0x60, 0x05, 0x61, 0x3E, 0xF0, 0x29, 0xD1, 0x15], .run 2]
    let m := (Machine.powerOn (.ofSeed 7)).after history
    m.memory.HoldsFont ∧ m.v 0 = 5 ∧ m.step.machine.step.fault = none ∧
      m.step.machine.step.machine.pixel 63 30 = true ∧
      m.step.machine.step.machine.pixel 63 31 = false := by
  intro history m
  have hstate : m.v 0 = 5 ∧ m.v 1 = 62 ∧ m.next? = .ok (.loadGlyph 0) ∧
      m.step.machine.next? = .ok (.draw 1 1 5) ∧ m.pixel 63 30 = false ∧
        m.pixel 63 31 = false := by
    decide +kernel
  have hfont : m.memory.HoldsFont := by
    unfold Memory.HoldsFont
    decide +kernel
  obtain ⟨hdigit, hplace, hnext, hnext', hoff, hoff'⟩ := hstate
  have hinks : Font.Inks (m.v 0).toNat ((m.v 1).toNat % 64) ((m.v 1).toNat % 32) 63 30 ∧
      ¬Font.Inks (m.v 0).toNat ((m.v 1).toNat % 64) ((m.v 1).toNat % 32) 63 31 := by
    rw [hdigit, hplace]
    decide
  have hsmall : (m.v 0).toNat ≤ 15 := by
    rw [hdigit]
    decide
  clear_value history
  obtain ⟨hpair, _, _, _, _, -, -, -, -, -, -, hshown⟩ :=
    glyph_is_shown (.ofSeed 7) history 0 1 1 5
  obtain ⟨-, hok, hmachine⟩ := hpair.steps hnext hnext'
  have hpixel := hshown hfont hsmall rfl
  have hlit := (hpixel 63 30 (by decide) (by decide)).1.trans (if_pos hinks.1)
  have hunlit := (hpixel 63 31 (by decide) (by decide)).1.trans (if_neg hinks.2)
  refine ⟨hfont, hdigit, hok, ?_, ?_⟩
  · rw [hmachine]
    exact hlit.trans (congrArg not hoff)
  · rw [hmachine]
    exact hunlit.trans hoff'

end Hardware

end Chip8
