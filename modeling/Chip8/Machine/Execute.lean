import Chip8.Fault
import Chip8.Instruction.Basic
import Chip8.Machine.Basic

/-!
# Executing an instruction

Three total functions say what an instruction does: `fault?` tells why it cannot be executed,
`effect` what it changes apart from the program counter, and `nextPc` where the machine goes on.
The last two are meant for instructions without a fault.
-/

namespace Chip8

/-- A flag as the value of a register. -/
def flag (b : Bool) : UInt8 := if b then 1 else 0

@[simp] theorem flag_true : flag true = 1 := rfl

@[simp] theorem flag_false : flag false = 0 := rfl

/-- The three decimal digits of a byte, hundreds first. -/
def decimalDigits (b : UInt8) : List UInt8 := [b / 100, b / 10 % 10, b % 10]

namespace Machine

/-! ## Faults -/

/-- The fault of an access to `len` bytes at the index register, if one of them is outside of
memory. An access to no byte at all has none. -/
def rangeFault? (m : Machine) (len : Nat) : Option Fault :=
  if 0 < len ∧ Memory.size < m.index.toNat + len then
    some (.memoryOutOfBounds (max m.index.toNat Memory.size))
  else none

theorem rangeFault?_eq_none_iff (m : Machine) (len : Nat) :
    m.rangeFault? len = none ↔ len = 0 ∨ m.index.toNat + len ≤ 4096 := by
  simp only [rangeFault?, Memory.size, ite_eq_right_iff, reduceCtorEq, imp_false]
  omega

def fault? (m : Machine) : Instruction → Option Fault
  | .ret => if m.stack.depth = 0 then some .stackUnderflow else none
  | .call addr =>
      if CallStack.capacity ≤ m.stack.depth then some (.stackOverflow (.ofNat addr)) else none
  | .draw _ _ n => m.rangeFault? n
  | .storeBcd _ => m.rangeFault? 3
  | .storeRegisters x | .loadRegisters x => m.rangeFault? (x + 1)
  | _ => none

theorem fault?_congr {m n : Machine} (hdepth : m.stack.depth = n.stack.depth)
    (hindex : m.index = n.index) (i : Instruction) : m.fault? i = n.fault? i := by
  cases i with
  | _ => simp only [fault?, rangeFault?, hdepth, hindex]

/-! ## Effects -/

/-- Set `Vx`, and VF last: where `x` is F the flag stays and the value is lost. -/
def setFlagged (m : Machine) (x : Fin 16) (value : UInt8) (f : Bool) : Machine :=
  (m.setV x value).setV flagRegister (flag f)

/-- The `n` bytes at the index register as a sprite with its corner at `(Vx, Vy)`, wrapped
around to the screen. -/
def sprite (m : Machine) (x y n : Fin 16) : Sprite where
  column := (m.v x).toNat % Display.width
  row := (m.v y).toNat % Display.height
  bytes := m.memory.slice m.index.toNat n

def effect (m : Machine) : Instruction → Machine
  | .clearScreen => { m with display := .blank }
  | .ret => { m with stack := m.stack.pop }
  | .call _ => { m with stack := m.stack.push m.pc }
  | .loadByte x kk => m.setV x kk
  | .addByte x kk => m.setV x (m.v x + kk)
  | .load x y => m.setV x (m.v y)
  | .or x y => m.setV x (m.v x ||| m.v y)
  | .and x y => m.setV x (m.v x &&& m.v y)
  | .xor x y => m.setV x (m.v x ^^^ m.v y)
  | .add x y => m.setFlagged x (m.v x + m.v y) (255 < (m.v x).toNat + (m.v y).toNat)
  | .sub x y => m.setFlagged x (m.v x - m.v y) (m.v y < m.v x)
  | .shiftRight x => m.setFlagged x (m.v x <<< 1) (m.v x &&& 1 = 1)
  | .subN x y => m.setFlagged x (m.v x - m.v y) (m.v x < m.v y)
  | .shiftLeft x => m.setFlagged x (m.v x <<< 1) (128 ≤ m.v x)
  | .loadIndex addr => { m with index := .ofNat addr }
  | .random x kk => { m.setV x (m.random.byte &&& kk) with random := m.random.advance }
  | .draw x y n =>
      let s := m.sprite x y n
      { m.setV flagRegister (flag (m.display.collides s)) with display := m.display.toggle s }
  | .loadDelayTimer x => m.setV x m.delayTimer
  | .waitForKey x =>
      match m.keypad.lowest? with
      | some key => m.setV x (.ofNat key)
      | none => m
  | .setDelayTimer x => { m with delayTimer := m.v x }
  | .setSoundTimer x => { m with soundTimer := m.v x }
  | .addIndex x =>
      let sum := m.index + (m.v x).toUInt16
      { m.setV flagRegister (flag (0x0FFF < sum)) with index := sum }
  | .loadGlyph x => { m with index := Font.glyphAddress (m.v x) }
  | .storeBcd x => { m with memory := m.memory.store m.index.toNat (decimalDigits (m.v x)) }
  | .storeRegisters x =>
      { m with memory := m.memory.store m.index.toNat (m.registers.toList.take (x + 1)) }
  | .loadRegisters x =>
      { m with registers := m.registers.mapIdx fun j old =>
          if j ≤ x then m.memory.read (m.index.toNat + j) else old }
  | .jump _ | .jumpOffset _ | .skipIfEqualByte _ _ | .skipIfNotEqualByte _ _ | .skipIfEqual _ _
  | .skipIfNotEqual _ _ | .skipIfKeyPressed _ | .skipIfKeyNotPressed _ => m

/-- Waiting for a key changes registers at most, whether a key is down or not. -/
theorem effect_waitForKey (m : Machine) (x : Fin 16) :
    m.effect (.waitForKey x) = { m with registers := (m.effect (.waitForKey x)).registers } := by
  simp only [effect]
  split <;> rfl

/-! ## Control flow -/

/-- Behind the instruction at `pc`, or behind the one after it if `skip` holds. -/
def skipIf (m : Machine) (skip : Bool) : UInt16 :=
  if skip then m.pc + 2 * .ofNat Instruction.size else m.pc + .ofNat Instruction.size

def nextPc (m : Machine) : Instruction → UInt16
  | .ret => m.stack.top + .ofNat Instruction.size
  | .jump addr | .call addr => .ofNat addr
  | .jumpOffset addr => .ofNat addr + (m.register 0).toUInt16
  | .skipIfEqualByte x kk => m.skipIf (m.v x = kk)
  | .skipIfNotEqualByte x kk => m.skipIf (m.v x ≠ kk)
  | .skipIfEqual x y => m.skipIf (m.v x = m.v y)
  | .skipIfNotEqual x y => m.skipIf (m.v x ≠ m.v y)
  | .skipIfKeyPressed x => m.skipIf (m.keypad.isPressed (m.v x))
  | .skipIfKeyNotPressed x => m.skipIf (!m.keypad.isPressed (m.v x))
  | .waitForKey _ => if m.keypad.lowest? = none then m.pc else m.pc + .ofNat Instruction.size
  | _ => m.pc + .ofNat Instruction.size

end Machine

end Chip8
