import Chip8.Machine.Load
import Chip8.Machine.Step

/-!
# Calls

What a host can do to a machine, as data, so that a history is a list of calls.
-/

namespace Chip8

inductive Call where
  | load (program : List UInt8)
  | step
  | run (n : Nat)
  | reset
  | setKeys (keys : Vector Bool Keypad.keyCount)
  | keyDown (key : UInt8)
  | keyUp (key : UInt8)
  deriving DecidableEq, Repr

namespace Machine

def perform (m : Machine) : Call → Outcome
  | .load program => m.load program
  | .step => m.step
  | .run n => m.run n
  | .reset => .quiet m.reset
  | .setKeys keys => .quiet (m.setKeys keys)
  | .keyDown key => .quiet (m.keyDown key)
  | .keyUp key => .quiet (m.keyUp key)

/-- The machine after a history of calls, whether they succeed or not. -/
def after (m : Machine) (history : List Call) : Machine :=
  history.foldl (fun m call => (m.perform call).machine) m

@[simp] theorem after_nil (m : Machine) : m.after [] = m := rfl

@[simp] theorem after_cons (m : Machine) (call : Call) (rest : List Call) :
    m.after (call :: rest) = (m.perform call).machine.after rest := rfl

theorem after_append (m : Machine) (past rest : List Call) :
    m.after (past ++ rest) = (m.after past).after rest := by
  simp [after]

end Machine

end Chip8
