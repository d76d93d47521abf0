import Chip8.Fault
import Chip8.Instruction.Basic

/-!
# Decoding

An opcode is read by its highest nibble. Four rows need more than that: `0nnn` is legal at two
values only, `5xy0` and `9xy0` end in a zero, and the rows `8`, `E` and `F` are told apart by
their lowest nibble or byte.
-/

namespace Chip8

/-! ## Operand fields -/

namespace Opcode

def x (opcode : UInt16) : Fin 16 :=
  ⟨opcode.toNat / 256 % 16, Nat.mod_lt _ (by decide)⟩

def y (opcode : UInt16) : Fin 16 :=
  ⟨opcode.toNat / 16 % 16, Nat.mod_lt _ (by decide)⟩

def n (opcode : UInt16) : Fin 16 :=
  ⟨opcode.toNat % 16, Nat.mod_lt _ (by decide)⟩

def kk (opcode : UInt16) : UInt8 :=
  opcode.toUInt8

def addr (opcode : UInt16) : Fin 4096 :=
  ⟨opcode.toNat % 4096, Nat.mod_lt _ (by decide)⟩

end Opcode

namespace Instruction

/-! ## Rows with a second level -/

/-- Row `8xyn`, by the lowest nibble. -/
def ofArithmetic? (x y : Fin 16) (n : Nat) : Option Instruction :=
  match n with
  | 0x0 => some (.load x y)
  | 0x1 => some (.or x y)
  | 0x2 => some (.and x y)
  | 0x3 => some (.xor x y)
  | 0x4 => some (.add x y)
  | 0x5 => some (.sub x y)
  | 0x6 => some (.shiftRight x)
  | 0x7 => some (.subN x y)
  | 0xE => some (.shiftLeft x)
  | _ => none

/-- Row `Exkk`, by the low byte. -/
def ofKeypad? (x : Fin 16) (kk : Nat) : Option Instruction :=
  match kk with
  | 0x9E => some (.skipIfKeyPressed x)
  | 0xA1 => some (.skipIfKeyNotPressed x)
  | _ => none

/-- Row `Fxkk`, by the low byte. -/
def ofMisc? (x : Fin 16) (kk : Nat) : Option Instruction :=
  match kk with
  | 0x07 => some (.loadDelayTimer x)
  | 0x0A => some (.waitForKey x)
  | 0x15 => some (.setDelayTimer x)
  | 0x18 => some (.setSoundTimer x)
  | 0x1E => some (.addIndex x)
  | 0x29 => some (.loadGlyph x)
  | 0x33 => some (.storeBcd x)
  | 0x55 => some (.storeRegisters x)
  | 0x65 => some (.loadRegisters x)
  | _ => none

/-! ## The decoder -/

/-- The instruction with this opcode, if there is one, on the operand fields cut out of it. -/
def ofFields? (opcode : UInt16) (x y n : Fin 16) (kk : UInt8) (addr : Fin 4096) :
    Option Instruction :=
  match opcode.toNat / 4096 with
  | 0x0 =>
      if opcode = 0x00E0 then some .clearScreen
      else if opcode = 0x00EE then some .ret
      else none
  | 0x1 => some (.jump addr)
  | 0x2 => some (.call addr)
  | 0x3 => some (.skipIfEqualByte x kk)
  | 0x4 => some (.skipIfNotEqualByte x kk)
  | 0x5 => if n.val = 0 then some (.skipIfEqual x y) else none
  | 0x6 => some (.loadByte x kk)
  | 0x7 => some (.addByte x kk)
  | 0x8 => ofArithmetic? x y n.val
  | 0x9 => if n.val = 0 then some (.skipIfNotEqual x y) else none
  | 0xA => some (.loadIndex addr)
  | 0xB => some (.jumpOffset addr)
  | 0xC => some (.random x kk)
  | 0xD => some (.draw x y n)
  | 0xE => ofKeypad? x kk.toNat
  | 0xF => ofMisc? x kk.toNat
  | _ => none

def ofOpcode? (opcode : UInt16) : Option Instruction :=
  ofFields? opcode (Opcode.x opcode) (Opcode.y opcode) (Opcode.n opcode) (Opcode.kk opcode)
    (Opcode.addr opcode)

def decode (opcode : UInt16) : Except Fault Instruction :=
  match ofOpcode? opcode with
  | some i => .ok i
  | none => .error (.illegalOpcode opcode)

end Instruction

end Chip8
