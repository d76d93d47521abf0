import Chip8.Proofs.Footprint

/-!
# Sprites

The drawing loops go through the bits of a sprite one by one, and they read the screen and VF while
they change them. In the end every pixel of the screen is flipped if the sprite covers it, and VF
tells whether one of these was lit before. The sprite is the one that the registers and the memory
give before the draw, also where VF is a coordinate.
-/

namespace Chip8

namespace Moment

/-- The deed draws on a pixel of the screen that is lit. -/
def Hits (t : Moment) : Prop :=
  ∃ column < 64, ∃ row < 32, t.before.pixel column row = true ∧ t.covers column row = true

/-- The deed draws on the screen, and this is what it leaves. -/
structure Draws (t : Moment) (after : Machine) : Prop where
  pixel : ∀ column row, column < 64 → row < 32 →
    after.pixel column row = (t.before.pixel column row ^^ t.covers column row)
  flag_of_hits : t.Hits → after.v Machine.flagRegister = 1
  flag_of_not_hits : ¬t.Hits → after.v Machine.flagRegister = 0
  registers : ∀ j, j ≠ Machine.flagRegister → after.v j = t.before.v j
  rest : after = { t.before with
    registers := after.registers
    display := after.display
    pc := t.before.pc + 2 }

theorem Draws.collision {m after : Machine} {deed : Deed} (h : Draws ⟨m, deed⟩ after)
    {column row : Nat} (hcolumn : column < 64) (hrow : row < 32)
    (hlit : m.pixel column row = true) (hcovers : covers ⟨m, deed⟩ column row = true) :
    after.pixel column row = false ∧ after.v Machine.flagRegister = 1 := by
  refine ⟨?_, h.flag_of_hits ⟨column, hcolumn, row, hrow, hlit, hcovers⟩⟩
  rw [h.pixel column row hcolumn hrow, hlit, hcovers, Bool.xor_self]

end Moment

namespace Machine

theorem fault?_draw_eq_none_iff (m : Machine) (x y n : Fin 16) :
    m.fault? (.draw x y n) = none ↔ n.val = 0 ∨ m.index.toNat + n ≤ 4096 :=
  m.rangeFault?_eq_none_iff n

/-- The machine right after it has executed a draw, before its timers run down. -/
def drawn (m : Machine) (x y n : Fin 16) : Machine :=
  { m.effect (.draw x y n) with pc := m.pc + 2 }

theorem hits_iff_collides (m : Machine) (x y n : Fin 16) :
    Moment.Hits ⟨m, .executed (.draw x y n)⟩ ↔ m.display.collides (m.sprite x y n) = true := by
  simp only [Display.collides_iff, covers_sprite]
  exact Iff.rfl

theorem v_drawn (m : Machine) (x y n j : Fin 16) :
    (m.drawn x y n).v j =
      if j = flagRegister then flag (m.display.collides (m.sprite x y n)) else m.v j :=
  m.v_setV flagRegister _ j

theorem draws_drawn (m : Machine) (x y n : Fin 16) :
    Moment.Draws ⟨m, .executed (.draw x y n)⟩ (m.drawn x y n) where
  pixel column row hcolumn hrow := by
    rw [← covers_sprite]
    exact m.display.pixel_toggle (m.sprite x y n) hcolumn hrow
  flag_of_hits h := by
    rw [v_drawn, if_pos rfl, (m.hits_iff_collides x y n).1 h, flag_true]
  flag_of_not_hits h := by
    rw [v_drawn, if_pos rfl, Bool.eq_false_iff.2 (mt (m.hits_iff_collides x y n).2 h), flag_false]
  registers j hj := by rw [v_drawn, if_neg hj]
  rest := rfl

end Machine

namespace Hardware

theorem flag_xor (b c : Bool) : flag (b ^^ c) = flag b ^^^ flag c := by
  rw [← flag_xor_one]
  cases c with
  | true => rw [if_pos rfl, flag_true]
  | false => rw [if_neg Bool.false_ne_true, flag_false, UInt8.xor_zero]

theorem execute_draw {m : Machine} (hdepth : m.stack.depth ≤ 16) {x y n : Fin 16}
    (hok : m.fault? (.draw x y n) = none) (log : List Event) :
    execute (.draw x y n) (ofMachine log m) = .done () (ofMachine log (m.drawn x y n)) :=
  execute_of_awaits?_eq_none log m hdepth hok rfl

theorem cell_drawn (log : List Event) (m : Machine) (x y n : Fin 16) {column row : Nat}
    (hcolumn : column < 64) (hrow : row < 32) :
    (ofMachine log (m.drawn x y n)).cell column row =
      (ofMachine log m).cell column row ^^^
        flag (Moment.covers ⟨m, .executed (.draw x y n)⟩ column row) := by
  have hcell : ∀ next : Machine,
      (ofMachine log next).cell column row = flag (next.pixel column row) := by
    intro next
    exact (cell_eq _ hcolumn hrow).trans (getElem_cells next.display hcolumn hrow)
  rw [hcell, hcell, (m.draws_drawn x y n).pixel column row hcolumn hrow, flag_xor]

/-- A draw that succeeds flips exactly the pixels that its sprite covers, all at once as far as one
can see, and the drawing loops of the hardware leave just this: each cell is what it was, or its
opposite. -/
theorem draw_is_simultaneous (random : Random.Generator) (history : List Call) {x y n : Fin 16}
    (hok : ((Machine.powerOn random).after history).fault? (.draw x y n) = none) :
    let m := (Machine.powerOn random).after history
    let t : Moment := ⟨m, .executed (.draw x y n)⟩
    (n.val = 0 ∨ m.index.toNat + n ≤ 4096) ∧ t.Draws (m.drawn x y n) ∧
      (m.next? = .ok (.draw x y n) →
        m.step.fault = none ∧ m.step.machine = (m.drawn x y n).tick) ∧
      ∃ log h after, replay random history = some h ∧ h = ofMachine log m ∧
        execute (.draw x y n) h = .done () after ∧ after = ofMachine log (m.drawn x y n) ∧
        ∀ column row, column < 64 → row < 32 →
          after.cell column row = h.cell column row ^^^ flag (t.covers column row) := by
  intro m t
  have hm : m.Reachable := ⟨random, history, rfl⟩
  obtain ⟨log, hreplay⟩ := replay_eq random history
  refine ⟨(m.fault?_draw_eq_none_iff x y n).1 hok, m.draws_drawn x y n, ?_, log, _, _, hreplay, rfl,
    execute_draw hm.bounded.depth_le hok log, rfl, ?_⟩
  · intro hnext
    have hmachine := Machine.machine_step_of_executed hnext hok
    exact ⟨(Machine.step_fault_of_next? hnext).trans hok, hmachine⟩
  · intro column row hcolumn hrow
    exact cell_drawn log m x y n hcolumn hrow

/-- Drawn at column 62 and row 30, which wrap around from 62 in VF, the sprite is cut off at the
right and at the bottom, and it turns off the pixel that the same draw has lit before. -/
theorem draw_is_simultaneous_clipped :
    let history : List Call :=
      [.load [0x6F, 0x3E, 0xA2, 0x00, 0xDF, 0xF5, 0x6F, 0x3E, 0xDF, 0xF5], .run 4]
    let m := (Machine.powerOn (.ofSeed 7)).after history
    m.fault? (.draw 0xF 0xF 5) = none ∧ m.pixel 63 30 = true ∧
      (m.drawn 0xF 0xF 5).pixel 63 30 = false ∧ (m.drawn 0xF 0xF 5).v Machine.flagRegister = 1 ∧
      m.step.machine = (m.drawn 0xF 0xF 5).tick := by
  intro history m
  have hstate : m.fault? (.draw 0xF 0xF 5) = none ∧ m.next? = .ok (.draw 0xF 0xF 5) ∧
      m.pixel 63 30 = true ∧
        Moment.covers ⟨m, .executed (.draw 0xF 0xF 5)⟩ 63 30 = true := by
    decide +kernel
  obtain ⟨hok, hnext, hlit, hcovers⟩ := hstate
  obtain ⟨-, hdraws, hstep, -⟩ := draw_is_simultaneous (.ofSeed 7) history hok
  obtain ⟨hoff, hflag⟩ := hdraws.collision (by decide) (by decide) hlit hcovers
  exact ⟨hok, hlit, hoff, hflag, (hstep hnext).2⟩

end Hardware

end Chip8
