/-!
# Instructions

The 34 instructions with their operands. `x` and `y` name registers, `kk` is a byte, `n` the
height of a sprite and `addr` a twelve-bit address. The comment at each constructor gives its
opcode, one letter to a nibble.
-/

namespace Chip8

inductive Instruction where
  /-- Opcode `00E0`: turn every pixel off. -/
  | clearScreen
  /-- Opcode `00EE`: go on behind the latest pending call. -/
  | ret
  /-- Opcode `1nnn`: go to `addr`. -/
  | jump (addr : Fin 4096)
  /-- Opcode `2nnn`: go to `addr` and remember this call. -/
  | call (addr : Fin 4096)
  /-- Opcode `3xkk`: skip an instruction if `Vx = kk`. -/
  | skipIfEqualByte (x : Fin 16) (kk : UInt8)
  /-- Opcode `4xkk`: skip an instruction if `Vx ≠ kk`. -/
  | skipIfNotEqualByte (x : Fin 16) (kk : UInt8)
  /-- Opcode `5xy0`: skip an instruction if `Vx = Vy`. -/
  | skipIfEqual (x y : Fin 16)
  /-- Opcode `6xkk`: `Vx := kk`. -/
  | loadByte (x : Fin 16) (kk : UInt8)
  /-- Opcode `7xkk`: `Vx := Vx + kk`, without a flag. -/
  | addByte (x : Fin 16) (kk : UInt8)
  /-- Opcode `8xy0`: `Vx := Vy`. -/
  | load (x y : Fin 16)
  /-- Opcode `8xy1`: bitwise or. -/
  | or (x y : Fin 16)
  /-- Opcode `8xy2`: bitwise and. -/
  | and (x y : Fin 16)
  /-- Opcode `8xy3`: bitwise exclusive or. -/
  | xor (x y : Fin 16)
  /-- Opcode `8xy4`: `Vx := Vx + Vy`, and VF is the carry. -/
  | add (x y : Fin 16)
  /-- Opcode `8xy5`: `Vx := Vx - Vy`, and VF tells whether `Vx > Vy`. -/
  | sub (x y : Fin 16)
  /-- Opcode `8xy6`: VF receives the lowest bit of `Vx`, and `Vx` is doubled. The shift goes to
  the left here as it does in `8xyE`; the two differ only in the bit that is kept. -/
  | shiftRight (x : Fin 16)
  /-- Opcode `8xy7`: `Vx := Vx - Vy`, and VF tells whether `Vy > Vx`. -/
  | subN (x y : Fin 16)
  /-- Opcode `8xyE`: VF receives the highest bit of `Vx`, and `Vx` is doubled. -/
  | shiftLeft (x : Fin 16)
  /-- Opcode `9xy0`: skip an instruction if `Vx ≠ Vy`. -/
  | skipIfNotEqual (x y : Fin 16)
  /-- Opcode `Annn`: `I := addr`. -/
  | loadIndex (addr : Fin 4096)
  /-- Opcode `Bnnn`: go to `addr + V0`. -/
  | jumpOffset (addr : Fin 4096)
  /-- Opcode `Cxkk`: `Vx` becomes a random byte masked by `kk`. -/
  | random (x : Fin 16) (kk : UInt8)
  /-- Opcode `Dxyn`: draw the `n` sprite bytes at `I` with their corner at `(Vx, Vy)`. -/
  | draw (x y n : Fin 16)
  /-- Opcode `Ex9E`: skip an instruction if key `Vx` is down. -/
  | skipIfKeyPressed (x : Fin 16)
  /-- Opcode `ExA1`: skip an instruction if key `Vx` is not down. -/
  | skipIfKeyNotPressed (x : Fin 16)
  /-- Opcode `Fx07`: `Vx` becomes the delay timer. -/
  | loadDelayTimer (x : Fin 16)
  /-- Opcode `Fx0A`: stay here until a key is down, then `Vx` becomes that key. -/
  | waitForKey (x : Fin 16)
  /-- Opcode `Fx15`: the delay timer becomes `Vx`. -/
  | setDelayTimer (x : Fin 16)
  /-- Opcode `Fx18`: the sound timer becomes `Vx`. -/
  | setSoundTimer (x : Fin 16)
  /-- Opcode `Fx1E`: `I := I + Vx`, and VF tells whether the result lies beyond memory. -/
  | addIndex (x : Fin 16)
  /-- Opcode `Fx29`: `I` becomes the address of the glyph of `Vx`. -/
  | loadGlyph (x : Fin 16)
  /-- Opcode `Fx33`: store the three decimal digits of `Vx` at `I`. -/
  | storeBcd (x : Fin 16)
  /-- Opcode `Fx55`: store `V0` to `Vx` at `I`. -/
  | storeRegisters (x : Fin 16)
  /-- Opcode `Fx65`: load `V0` to `Vx` from `I`. -/
  | loadRegisters (x : Fin 16)
  deriving DecidableEq, Repr

namespace Instruction

/-- Every instruction takes two bytes of memory. -/
abbrev size : Nat := 2

@[simp] theorem ofNat_size : UInt16.ofNat size = 2 := rfl

def name : Instruction → String
  | clearScreen => "ClearScreen"
  | ret => "Return"
  | jump _ => "Jump"
  | call _ => "Call"
  | skipIfEqualByte _ _ => "SkipIfEqualByte"
  | skipIfNotEqualByte _ _ => "SkipIfNotEqualByte"
  | skipIfEqual _ _ => "SkipIfEqual"
  | loadByte _ _ => "LoadByte"
  | addByte _ _ => "AddByte"
  | load _ _ => "Load"
  | or _ _ => "Or"
  | and _ _ => "And"
  | xor _ _ => "Xor"
  | add _ _ => "Add"
  | sub _ _ => "Sub"
  | shiftRight _ => "ShiftRight"
  | subN _ _ => "SubN"
  | shiftLeft _ => "ShiftLeft"
  | skipIfNotEqual _ _ => "SkipIfNotEqual"
  | loadIndex _ => "LoadIndex"
  | jumpOffset _ => "JumpOffset"
  | random _ _ => "Random"
  | draw _ _ _ => "Draw"
  | skipIfKeyPressed _ => "SkipIfKeyPressed"
  | skipIfKeyNotPressed _ => "SkipIfKeyNotPressed"
  | loadDelayTimer _ => "LoadDelayTimer"
  | waitForKey _ => "WaitForKey"
  | setDelayTimer _ => "SetDelayTimer"
  | setSoundTimer _ => "SetSoundTimer"
  | addIndex _ => "AddIndex"
  | loadGlyph _ => "LoadGlyph"
  | storeBcd _ => "StoreBcd"
  | storeRegisters _ => "StoreRegisters"
  | loadRegisters _ => "LoadRegisters"

/-- The operands with their field names, in the order in which they are written. -/
def operands : Instruction → List (String × Nat)
  | clearScreen | ret => []
  | jump addr | call addr | loadIndex addr | jumpOffset addr => [("addr", addr.val)]
  | skipIfEqualByte x kk | skipIfNotEqualByte x kk | loadByte x kk | addByte x kk
  | random x kk => [("x", x.val), ("kk", kk.toNat)]
  | skipIfEqual x y | skipIfNotEqual x y | load x y | or x y | and x y | xor x y | add x y
  | sub x y | subN x y => [("x", x.val), ("y", y.val)]
  | draw x y n => [("x", x.val), ("y", y.val), ("n", n.val)]
  | shiftRight x | shiftLeft x | skipIfKeyPressed x | skipIfKeyNotPressed x | loadDelayTimer x
  | waitForKey x | setDelayTimer x | setSoundTimer x | addIndex x | loadGlyph x | storeBcd x
  | storeRegisters x | loadRegisters x => [("x", x.val)]

/-- The name alone, or the name and the operands in braces. -/
def text (i : Instruction) : String :=
  match i.operands with
  | [] => i.name
  | fields =>
      i.name ++ " \x7b " ++
        ", ".intercalate (fields.map fun field => field.1 ++ ": " ++ toString field.2) ++ " \x7d"

end Instruction

end Chip8
