import Chip8.Event
import Chip8.Machine.Basic

/-!
# Outcomes

What a call on a machine gives: the machine afterwards, the fault if there was one, and the
events in the order in which they happened.
-/

namespace Chip8

structure Outcome where
  machine : Machine
  fault : Option Fault
  log : List Event
  deriving DecidableEq

namespace Outcome

/-- A call that went well and reported nothing. -/
def quiet (m : Machine) : Outcome := ⟨m, none, []⟩

/-- The outcome `o` of a later call, with the events so far in front of its own. -/
def after (log : List Event) (o : Outcome) : Outcome := { o with log := log ++ o.log }

@[simp] theorem after_nil (o : Outcome) : o.after [] = o := rfl

theorem after_after (first second : List Event) (o : Outcome) :
    (o.after second).after first = o.after (first ++ second) := by
  simp [after]

end Outcome

end Chip8
