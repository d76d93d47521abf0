import Chip8.Hex

/-!
# Faults

What can go wrong while a program is loaded or executed, and the text that reports it.
Addresses in a text have a `0x` and as many zeros as make up their usual width.
-/

namespace Chip8

inductive Fault where
  /-- A program image of `size` bytes, where at most `limit` bytes fit. -/
  | romTooLarge (size limit : Nat)
  /-- No instruction has this opcode. -/
  | illegalOpcode (opcode : UInt16)
  /-- A call to `target` while every stack slot is taken. -/
  | stackOverflow (target : UInt16)
  /-- A return while no call is pending. -/
  | stackUnderflow
  /-- There are no two bytes of memory left at the program counter. -/
  | pcOutOfBounds (pc : UInt16)
  /-- The first address beyond memory that an access through the index register would touch. -/
  | memoryOutOfBounds (address : Nat)
  deriving DecidableEq, Repr

namespace Fault

def message : Fault → String
  | romTooLarge size limit =>
      "ROM is too large (" ++ toString size ++ " bytes), at most " ++ toString limit ++
        " bytes fit in memory"
  | illegalOpcode opcode => "illegal opcode 0x" ++ Hex.padded 4 opcode.toNat
  | stackOverflow target =>
      "stack overflow calling subroutine at 0x" ++ Hex.padded 3 target.toNat
  | stackUnderflow => "stack underflow: return with an empty call stack"
  | pcOutOfBounds pc => "program counter 0x" ++ Hex.padded 4 pc.toNat ++ " is outside of memory"
  | memoryOutOfBounds address =>
      "memory access out of bounds at address 0x" ++ Hex.padded 4 address

end Fault

end Chip8
