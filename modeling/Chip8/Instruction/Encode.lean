import Chip8.Instruction.Basic

/-!
# Encoding

The opcode of an instruction. Two instructions leave a nibble of their opcode unread, so the
encoder takes the value to put there.
-/

namespace Chip8.Instruction

/-- An opcode from its four nibbles. -/
def ofNibbles (a b c d : Nat) : UInt16 := .ofNat (a * 4096 + b * 256 + c * 16 + d)

/-- An opcode from two nibbles and a byte. -/
def ofNibblesByte (a b : Nat) (kk : UInt8) : UInt16 := .ofNat (a * 4096 + b * 256 + kk.toNat)

/-- An opcode from a nibble and a twelve-bit address. -/
def ofNibbleAddr (a addr : Nat) : UInt16 := .ofNat (a * 4096 + addr)

/-- The opcode of an instruction, with `unread` as the third nibble of `8xy6` and `8xyE`. -/
def encode (unread : Fin 16) : Instruction → UInt16
  | clearScreen => 0x00E0
  | ret => 0x00EE
  | jump addr => ofNibbleAddr 0x1 addr
  | call addr => ofNibbleAddr 0x2 addr
  | skipIfEqualByte x kk => ofNibblesByte 0x3 x kk
  | skipIfNotEqualByte x kk => ofNibblesByte 0x4 x kk
  | skipIfEqual x y => ofNibbles 0x5 x y 0x0
  | loadByte x kk => ofNibblesByte 0x6 x kk
  | addByte x kk => ofNibblesByte 0x7 x kk
  | load x y => ofNibbles 0x8 x y 0x0
  | or x y => ofNibbles 0x8 x y 0x1
  | and x y => ofNibbles 0x8 x y 0x2
  | xor x y => ofNibbles 0x8 x y 0x3
  | add x y => ofNibbles 0x8 x y 0x4
  | sub x y => ofNibbles 0x8 x y 0x5
  | shiftRight x => ofNibbles 0x8 x unread 0x6
  | subN x y => ofNibbles 0x8 x y 0x7
  | shiftLeft x => ofNibbles 0x8 x unread 0xE
  | skipIfNotEqual x y => ofNibbles 0x9 x y 0x0
  | loadIndex addr => ofNibbleAddr 0xA addr
  | jumpOffset addr => ofNibbleAddr 0xB addr
  | random x kk => ofNibblesByte 0xC x kk
  | draw x y n => ofNibbles 0xD x y n
  | skipIfKeyPressed x => ofNibblesByte 0xE x 0x9E
  | skipIfKeyNotPressed x => ofNibblesByte 0xE x 0xA1
  | loadDelayTimer x => ofNibblesByte 0xF x 0x07
  | waitForKey x => ofNibblesByte 0xF x 0x0A
  | setDelayTimer x => ofNibblesByte 0xF x 0x15
  | setSoundTimer x => ofNibblesByte 0xF x 0x18
  | addIndex x => ofNibblesByte 0xF x 0x1E
  | loadGlyph x => ofNibblesByte 0xF x 0x29
  | storeBcd x => ofNibblesByte 0xF x 0x33
  | storeRegisters x => ofNibblesByte 0xF x 0x55
  | loadRegisters x => ofNibblesByte 0xF x 0x65

end Chip8.Instruction
