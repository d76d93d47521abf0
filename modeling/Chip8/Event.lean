import Chip8.Fault
import Chip8.Hex
import Chip8.Instruction.Basic

/-!
# Events

What a machine reports about its work, with the level and the text of each report.
-/

namespace Chip8

inductive Level where
  | info
  | debug
  | trace
  | warn
  deriving DecidableEq, Repr

def Level.name : Level → String
  | info => "INFO"
  | debug => "DEBUG"
  | trace => "TRACE"
  | warn => "WARN"

inductive Event where
  /-- A program of `size` bytes was loaded. -/
  | loaded (size : Nat)
  /-- The instruction at `pc` is about to be executed on these registers. -/
  | executing (pc opcode : UInt16) (instruction : Instruction) (registers : Vector UInt8 16)
  /-- The machine stands still until a key is down, for register `x`. -/
  | awaitingKey (x : Fin 16)
  /-- The sound timer ran out. -/
  | toneTick
  /-- The step at `pc` failed. -/
  | faulted (pc : UInt16) (fault : Fault)
  deriving DecidableEq, Repr

namespace Event

def level : Event → Level
  | loaded _ => .info
  | executing _ _ _ _ => .trace
  | awaitingKey _ => .debug
  | toneTick => .debug
  | faulted _ _ => .warn

def text : Event → String
  | loaded size => "loaded " ++ toString size ++ " byte program at 0x200"
  | executing pc opcode instruction registers =>
      "[" ++ Hex.padded 4 pc.toNat ++ "] " ++ Hex.padded 4 opcode.toNat ++ " " ++
        instruction.text ++ " :: [" ++
        ", ".intercalate (registers.toList.map fun v => toString v.toNat) ++ "]"
  | awaitingKey x => "waiting for key press into V" ++ Hex.padded 1 x.val
  | toneTick => "tone tick"
  | faulted pc fault => "fault at 0x" ++ Hex.padded 4 pc.toNat ++ ": " ++ fault.message

end Event

end Chip8
