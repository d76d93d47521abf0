import Chip8.Instruction.Decode
import Chip8.Machine.Execute
import Chip8.Proofs.Hardware.Action

/-!
# Instructions as actions

Every instruction is a sequence of single accesses. A sprite is drawn by two loops over its rows
and bits, each of which ends early at the edge of the screen.
-/

namespace Chip8.Hardware

/-! ## Registers and ranges -/

def register (x : Nat) : Action UInt8 := do
  let h ← look id
  entry h.registers x

def setRegister (x : Nat) (value : UInt8) : Action Unit := do
  let h ← look id
  let registers ← withEntry h.registers x value
  change fun h => { h with registers := registers }

theorem setRegister_apply (h : Hardware) {x : Nat} (hx : x < 16) (value : UInt8) :
    setRegister x value h = .done () { h with registers := h.registers.setIfInBounds x value } := by
  simp only [setRegister, bind_apply, look_apply, withEntry_apply _ hx, change_apply, id_eq]

theorem register_apply (h : Hardware) {x : Nat} (hx : x < 16) :
    register x h = .done h.registers[x] h := by
  simp only [register, bind_apply, look_apply, entry_apply _ hx, id_eq]

/-- The index register as the start of an access to `len` bytes. -/
def indexRange (len : Nat) : Action Nat := do
  let base ← look fun h => h.index.toNat
  if 0 < len then do
    let stop ← sum sizeValues base len
    if Memory.size < stop then raise (.memoryOutOfBounds (max base Memory.size)) else return base
  else return base

def storeByte (address : Nat) (value : UInt8) : Action Unit := do
  let h ← look id
  let memory ← withEntry h.memory address value
  change fun h => { h with memory := memory }

/-! ## Drawing -/

/-- Flip a pixel, and set the flag if this turns it off. -/
def flip (row column : Nat) : Action Unit := do
  let h ← look id
  let cells ← entry h.display row
  let cell ← entry cells column
  if cell = 1 then setRegister 15 1
  let cells ← withEntry cells column (cell ^^^ 1)
  let display ← withEntry h.display row cells
  change fun h => { h with display := display }

/-- The last `left` bits of a sprite row that starts in `column`, from number `bit` on. -/
def drawBits (row column : Nat) (byte : UInt8) (bit : Nat) : Nat → Action Unit
  | 0 => return ()
  | left + 1 => do
      let x ← sum sizeValues column bit
      if Display.width ≤ x then return ()
      else do
        demand (bit < 8)
        if byte &&& (0x80 >>> UInt8.ofNat bit) ≠ 0 then flip row x
        drawBits row column byte (bit + 1) left

/-- The last `left` rows of the sprite at `base`, from number `k` on. -/
def drawRows (base row column k : Nat) : Nat → Action Unit
  | 0 => return ()
  | left + 1 => do
      let y ← sum sizeValues row k
      if Display.height ≤ y then return ()
      else do
        let address ← sum sizeValues base k
        let h ← look id
        let byte ← entry h.memory address
        drawBits y column byte 0 8
        drawRows base row column (k + 1) left

def drawSprite (vx vy : UInt8) (n : Nat) : Action Unit := do
  let base ← indexRange n
  setRegister 15 0
  drawRows base (vy.toNat % Display.height) (vx.toNat % Display.width) 0 n

/-! ## Instructions -/

inductive Flow where
  | next
  | skip
  | jump (addr : UInt16)
  | hold

def Flow.skipIf (condition : Bool) : Flow := if condition then .skip else .next

def Flow.target (pc : UInt16) : Flow → UInt16
  | .next => pc + .ofNat Instruction.size
  | .skip => pc + 2 * .ofNat Instruction.size
  | .jump addr => addr
  | .hold => pc

def combine (x y : Nat) (value : UInt8 → UInt8 → UInt8) : Action Flow := do
  let a ← register x
  let b ← register y
  setRegister x (value a b)
  return .next

/-- Set `Vx` to a value of `Vx` and `Vy`, and then VF to one of what they were before. -/
def combineFlagged (x y : Nat) (value flagged : UInt8 → UInt8 → UInt8) : Action Flow := do
  let a ← register x
  let b ← register y
  setRegister x (value a b)
  setRegister 15 (flagged a b)
  return .next

def skipComparing (x y : Nat) (holds : UInt8 → UInt8 → Bool) : Action Flow := do
  let a ← register x
  let b ← register y
  return .skipIf (holds a b)

/-- A number above fifteen is a key that is never down. -/
def isKeyPressed (key : UInt8) : Action Bool := look fun h => h.keypad[key.toNat]?.getD false

def skipOnKey (x : Nat) (down : Bool) : Action Flow := do
  let key ← register x
  let pressed ← isKeyPressed key
  return .skipIf (pressed == down)

def waitForKey (x : Fin 16) : Action Flow := do
  let pressed ← look fun h => h.keypad.findFinIdx? id
  match pressed with
  | some key => do
      setRegister x (.ofNat key)
      return .next
  | none => do
      report (.awaitingKey x)
      return .hold

def storeBcd (x : Nat) : Action Flow := do
  let value ← register x
  let base ← indexRange 3
  storeByte base (value / 100)
  let tens ← sum sizeValues base 1
  storeByte tens (value / 10 % 10)
  let ones ← sum sizeValues base 2
  storeByte ones (value % 10)
  return .next

def storeRegisters (x : Nat) : Action Flow := do
  let len ← sum sizeValues x 1
  let base ← indexRange len
  let last ← sum sizeValues base x
  let stop ← sum sizeValues last 1
  let h ← look id
  let values ← slice h.registers 0 len
  let memory ← withSlice h.memory base stop values
  change fun h => { h with memory := memory }
  return .next

def loadRegisters (x : Nat) : Action Flow := do
  let len ← sum sizeValues x 1
  let base ← indexRange len
  let last ← sum sizeValues base x
  let stop ← sum sizeValues last 1
  let h ← look id
  let values ← slice h.memory base stop
  let registers ← withSlice h.registers 0 len values
  change fun h => { h with registers := registers }
  return .next

def perform : Instruction → Action Flow
  | .clearScreen => do
      change fun h => { h with display := h.display.map fun row => row.map fun _ => 0 }
      return .next
  | .ret => do
      let depth ← look Hardware.depth
      if depth = 0 then raise .stackUnderflow
      else do
        let depth ← difference depth 1
        change fun h => { h with depth := depth }
        let h ← look id
        let slot ← entry h.stack depth
        return .jump (slot + .ofNat Instruction.size)
  | .jump addr => return .jump (.ofNat addr)
  | .call addr => do
      let depth ← look Hardware.depth
      if depth = CallStack.capacity then raise (.stackOverflow (.ofNat addr))
      else do
        let h ← look id
        let stack ← withEntry h.stack depth h.pc
        change fun h => { h with stack := stack }
        let depth ← sum sizeValues depth 1
        change fun h => { h with depth := depth }
        return .jump (.ofNat addr)
  | .skipIfEqualByte x kk => skipComparing x x fun a _ => a = kk
  | .skipIfNotEqualByte x kk => skipComparing x x fun a _ => a ≠ kk
  | .skipIfEqual x y => skipComparing x y fun a b => a = b
  | .skipIfNotEqual x y => skipComparing x y fun a b => a ≠ b
  | .loadByte x kk => do
      setRegister x kk
      return .next
  | .addByte x kk => combine x x fun a _ => a + kk
  | .load x y => combine x y fun _ b => b
  | .or x y => combine x y fun a b => a ||| b
  | .and x y => combine x y fun a b => a &&& b
  | .xor x y => combine x y fun a b => a ^^^ b
  | .add x y => combineFlagged x y (· + ·) fun a b => flag (255 < a.toNat + b.toNat)
  | .sub x y => combineFlagged x y (· - ·) fun a b => flag (b < a)
  | .shiftRight x => combineFlagged x x (fun a _ => a <<< 1) fun a _ => a &&& 1
  | .subN x y => combineFlagged x y (· - ·) fun a b => flag (a < b)
  | .shiftLeft x => combineFlagged x x (fun a _ => a <<< 1) fun a _ => a >>> 7
  | .loadIndex addr => do
      change fun h => { h with index := .ofNat addr }
      return .next
  | .jumpOffset addr => do
      let v ← register 0
      let target ← sum wordValues addr v.toNat
      return .jump (.ofNat target)
  | .random x kk => do
      let byte ← look fun h => h.random.byte
      change fun h => { h with random := h.random.advance }
      setRegister x (byte &&& kk)
      return .next
  | .draw x y n => do
      let vx ← register x
      let vy ← register y
      drawSprite vx vy n
      return .next
  | .skipIfKeyPressed x => skipOnKey x true
  | .skipIfKeyNotPressed x => skipOnKey x false
  | .loadDelayTimer x => do
      let timer ← look delayTimer
      setRegister x timer
      return .next
  | .waitForKey x => waitForKey x
  | .setDelayTimer x => do
      let value ← register x
      change fun h => { h with delayTimer := value }
      return .next
  | .setSoundTimer x => do
      let value ← register x
      change fun h => { h with soundTimer := value }
      return .next
  | .addIndex x => do
      let h ← look id
      let value ← register x
      let sum := h.index + value.toUInt16
      setRegister 15 (flag (0x0FFF < sum))
      change fun h => { h with index := sum }
      return .next
  | .loadGlyph x => do
      let digit ← register x
      let address ← product wordValues digit.toNat Font.glyphSize
      change fun h => { h with index := .ofNat address }
      return .next
  | .storeBcd x => storeBcd x
  | .storeRegisters x => storeRegisters x
  | .loadRegisters x => loadRegisters x

def execute (i : Instruction) : Action Unit := do
  let flow ← perform i
  change fun h => { h with pc := flow.target h.pc }

end Chip8.Hardware
