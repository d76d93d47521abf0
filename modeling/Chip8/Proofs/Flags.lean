import Chip8.Proofs.Footprint

/-!
# Flags

Five instructions set `Vx` to a value of `Vx` and `Vy` and VF to a flag. Both are computed from the
registers as they were, and VF is written last. So the flag is right also where `Vx` or `Vy` is VF
itself, and only the value is lost if `Vx` is.
-/

namespace Chip8

/-! ## Bytes as numbers -/

theorem toNat_add_byte (a b : UInt8) : ((a + b).toNat : ℤ) = ((a.toNat : ℤ) + b.toNat) % 256 := by
  rw [UInt8.toNat_add]
  omega

theorem toNat_sub_byte (a b : UInt8) : ((a - b).toNat : ℤ) = ((a.toNat : ℤ) - b.toNat) % 256 := by
  have hb := b.toNat_lt
  rw [UInt8.toNat_sub]
  omega

theorem toNat_shiftLeft_one (a : UInt8) : ((a <<< 1).toNat : ℤ) = 2 * (a.toNat : ℤ) % 256 := by
  rw [UInt8.toNat_shiftLeft]
  simp only [UInt8.reduceToNat, Nat.reduceMod, Nat.shiftLeft_eq, Nat.reducePow]
  omega

theorem and_one_eq_one_iff (a : UInt8) : a &&& 1 = 1 ↔ (a.toNat : ℤ) % 2 = 1 := by
  have hbit : (a &&& 1).toNat = a.toNat % 2 := Nat.and_one_is_mod a.toNat
  rw [← UInt8.toNat_inj, hbit, UInt8.toNat_one]
  omega

namespace Machine

/-- Executed on this machine, the instruction sets `Vx` to `value` and then VF to whether `f`
holds. -/
structure Flagged (m : Machine) (i : Instruction) (x : Fin 16) (value : ℤ) (f : Prop) : Prop where
  executes : ∀ log, Hardware.execute i (Hardware.ofMachine log m) =
    .done () (Hardware.ofMachine log { m.effect i with pc := m.pc + 2 })
  steps : m.next? = .ok i →
    m.step.fault = none ∧ m.step.machine.registers = (m.effect i).registers
  flag_of : f → (m.effect i).v flagRegister = 1
  flag_of_not : ¬f → (m.effect i).v flagRegister = 0
  value : x ≠ flagRegister → (((m.effect i).v x).toNat : ℤ) = value
  others : ∀ j, j ≠ x → j ≠ flagRegister → (m.effect i).v j = m.v j

theorem execute_combineFlagged (m : Machine) (log : List Event) {i : Instruction} {x y : Fin 16}
    {value flagged : UInt8 → UInt8 → UInt8} {f : Bool}
    (hperform : Hardware.perform i = Hardware.combineFlagged x y value flagged)
    (hf : flagged (m.v x) (m.v y) = flag f) :
    Hardware.execute i (Hardware.ofMachine log m) =
      .done () (Hardware.ofMachine log
        { m.setFlagged x (value (m.v x) (m.v y)) f with pc := m.pc + 2 }) := by
  rw [Hardware.execute, hperform,
    Hardware.bind_of_done (Hardware.combineFlagged_ofMachine log m x y value flagged hf)]
  rfl

theorem flagged_of_setFlagged {m : Machine} {i : Instruction} {x y : Fin 16}
    {value flagged : UInt8 → UInt8 → UInt8} {f : Bool} {result : ℤ} {p : Prop}
    (hperform : Hardware.perform i = Hardware.combineFlagged x y value flagged)
    (hf : flagged (m.v x) (m.v y) = flag f)
    (heffect : m.effect i = m.setFlagged x (value (m.v x) (m.v y)) f) (hfault : m.fault? i = none)
    (hresult : ((value (m.v x) (m.v y)).toNat : ℤ) = result) (hp : f = true ↔ p) :
    m.Flagged i x result p where
  executes log := by rw [m.execute_combineFlagged log hperform hf, heffect]
  steps hnext := by
    refine ⟨(step_fault_of_next? hnext).trans hfault, ?_⟩
    rw [machine_step_of_executed hnext hfault, advance, tick]
  flag_of h := by rw [heffect, v_setFlagged, if_pos rfl, hp.2 h, flag_true]
  flag_of_not h := by
    rw [heffect, v_setFlagged, if_pos rfl, Bool.eq_false_iff.2 (mt hp.1 h), flag_false]
  value hx := by rw [heffect, v_setFlagged, if_neg hx, if_pos rfl, hresult]
  others j hx hflag := by rw [heffect, v_setFlagged, if_neg hflag, if_neg hx]

/-- What the five instructions with a flag compute from the old values `a` of `Vx` and `b` of `Vy`,
for any registers `x` and `y`, also VF and also the same. -/
theorem flag_arithmetic (m : Machine) (x y : Fin 16) :
    let a : ℤ := (m.v x).toNat
    let b : ℤ := (m.v y).toNat
    m.Flagged (.add x y) x ((a + b) % 256) (255 < a + b) ∧
      m.Flagged (.sub x y) x ((a - b) % 256) (b < a) ∧
      m.Flagged (.subN x y) x ((a - b) % 256) (a < b) ∧
      m.Flagged (.shiftRight x) x (2 * a % 256) (a % 2 = 1) ∧
      m.Flagged (.shiftLeft x) x (2 * a % 256) (128 ≤ a) := by
  intro a b
  have hless : ∀ c d : UInt8, (decide (c < d) = true ↔ (c.toNat : ℤ) < d.toNat) := by
    intro c d
    rw [decide_eq_true_iff, UInt8.lt_iff_toNat_lt, Int.ofNat_lt]
  have hcarry : decide (255 < (m.v x).toNat + (m.v y).toNat) = true ↔ 255 < a + b := by
    rw [decide_eq_true_iff]
    omega
  have hlow : decide (m.v x &&& 1 = 1) = true ↔ a % 2 = 1 := by
    rw [decide_eq_true_iff, and_one_eq_one_iff]
  have hhigh : decide (128 ≤ m.v x) = true ↔ 128 ≤ a := by
    rw [decide_eq_true_iff, UInt8.le_iff_toNat_le]
    exact Int.ofNat_le.symm
  refine ⟨?_, ?_, ?_, ?_, ?_⟩
  · exact flagged_of_setFlagged rfl rfl rfl rfl (toNat_add_byte (m.v x) (m.v y)) hcarry
  · exact flagged_of_setFlagged rfl rfl rfl rfl (toNat_sub_byte (m.v x) (m.v y)) (hless _ _)
  · exact flagged_of_setFlagged rfl rfl rfl rfl (toNat_sub_byte (m.v x) (m.v y)) (hless _ _)
  · exact flagged_of_setFlagged (y := x) rfl (Hardware.and_one_eq_flag (m.v x)) rfl rfl
      (toNat_shiftLeft_one (m.v x)) hlow
  · exact flagged_of_setFlagged (y := x) rfl (Hardware.shiftRight_seven_eq_flag (m.v x)) rfl rfl
      (toNat_shiftLeft_one (m.v x)) hhigh

end Machine

end Chip8
