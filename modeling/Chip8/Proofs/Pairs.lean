import Chip8.Proofs.Footprint

/-!
# Two instructions in a row

An instruction that is executed directly after another one finds the machine that this one leaves.
In steps the timers run down in between, which makes no difference to an instruction that neither
reads nor sets a timer.
-/

namespace Chip8

def Instruction.usesTimers : Instruction → Bool
  | loadDelayTimer _ | setDelayTimer _ | setSoundTimer _ => true
  | _ => false

namespace Machine

/-- The machine right after it has executed an instruction, before its timers run down. -/
def executed (m : Machine) (i : Instruction) : Machine := { m.effect i with pc := m.nextPc i }

/-- The two instructions succeed on this machine, one directly after the other, and this is what
they leave. Steps that execute them leave it as well, with both timers run down twice. -/
structure InARow (m : Machine) (i j : Instruction) (after : Machine) : Prop where
  first : m.fault? i = none
  second : (m.executed i).fault? j = none
  executes : m.stack.depth ≤ 16 → ∀ log,
    Hardware.execute i (Hardware.ofMachine log m) =
        .done () (Hardware.ofMachine log (m.executed i)) ∧
      Hardware.execute j (Hardware.ofMachine log (m.executed i)) =
        .done () (Hardware.ofMachine log after)
  steps : m.next? = .ok i → m.step.machine.next? = .ok j →
    m.step.fault = none ∧ m.step.machine.step.fault = none ∧
      m.step.machine.step.machine = after.tick.tick

theorem fault?_tick (m : Machine) (i : Instruction) : m.tick.fault? i = m.fault? i :=
  fault?_congr rfl rfl i

theorem executed_tick (m : Machine) {i : Instruction} (hi : i.usesTimers = false) :
    m.tick.executed i = (m.executed i).tick := by
  cases i with
  | loadDelayTimer x | setDelayTimer x | setSoundTimer x => cases hi
  | waitForKey x =>
      cases hkey : m.keypad.lowest? with
      | some key => simp only [executed, effect, nextPc, tick, setV, hkey]
      | none => simp only [executed, effect, nextPc, tick, hkey]
  | _ => rfl

theorem inARow {m : Machine} {i j : Instruction} (hi : m.fault? i = none)
    (hj : (m.executed i).fault? j = none) (hwait : m.awaits? i = none)
    (hwait' : (m.executed i).awaits? j = none) (htimers : j.usesTimers = false) :
    m.InARow i j ((m.executed i).executed j) where
  first := hi
  second := hj
  executes hdepth log := by
    have hdepth' : (m.executed i).stack.depth ≤ 16 := depth_effect_le hdepth hi
    exact ⟨Hardware.execute_of_awaits?_eq_none log m hdepth hi hwait,
      Hardware.execute_of_awaits?_eq_none log (m.executed i) hdepth' hj hwait'⟩
  steps hnext hnext' := by
    have hfirst : m.step.machine = (m.executed i).tick := machine_step_of_executed hnext hi
    rw [hfirst] at hnext' ⊢
    have hsecond : (m.executed i).tick.fault? j = none := (fault?_tick _ j).trans hj
    refine ⟨(step_fault_of_next? hnext).trans hi, (step_fault_of_next? hnext').trans hsecond, ?_⟩
    rw [machine_step_of_executed hnext' hsecond]
    exact congrArg tick ((m.executed i).executed_tick htimers)

end Machine

end Chip8
