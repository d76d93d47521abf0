import Chip8.Machine.Call
import Chip8.Proofs.Hardware.Execute

/-!
# Calls on the hardware

The calls of a host as actions, and the queries that it can make between them.
-/

namespace Chip8.Hardware

/-! ## One step -/

def fetch : Action UInt16 := do
  let h ← look id
  let next ← sum sizeValues h.pc.toNat 1
  if Memory.size ≤ next then raise (.pcOutOfBounds h.pc)
  else do
    let high ← entry h.memory h.pc.toNat
    let low ← entry h.memory next
    return high.toUInt16 <<< 8 ||| low.toUInt16

/-- An operand field that has to be one of `limit` numbers. -/
def operand (limit : Nat) (field : UInt16) : Action (Fin limit) :=
  if h : field.toNat < limit then pure ⟨field.toNat, h⟩ else crash

/-- The instruction with this opcode, on operand fields that are masked out of it. -/
def decode (opcode : UInt16) : Action Instruction := do
  let x ← operand 16 ((opcode >>> 8) &&& 0x000F)
  let y ← operand 16 ((opcode >>> 4) &&& 0x000F)
  let n ← operand 16 (opcode &&& 0x000F)
  let addr ← operand 4096 (opcode &&& 0x0FFF)
  match Instruction.ofFields? opcode x y n opcode.toUInt8 addr with
  | some i => return i
  | none => raise (.illegalOpcode opcode)

def reporting (p : Action Unit) : Action Unit := fun h =>
  match p h with
  | .fault cause next =>
      .fault cause { next with log := next.log ++ [.faulted next.pc cause] }
  | result => result

def decayTimers : Action Unit := do
  change fun h => { h with delayTimer := .ofNat (h.delayTimer.toNat - 1) }
  let timer ← look soundTimer
  if timer = 1 then do
    change fun h => { h with tone := true }
    report .toneTick
  change fun h => { h with soundTimer := .ofNat (h.soundTimer.toNat - 1) }

def mute : Action Unit := change fun h => { h with tone := false }

def cycle : Action Unit := do
  let opcode ← fetch
  let i ← decode opcode
  let h ← look id
  report (.executing h.pc opcode i h.registers)
  execute i

def step : Action Unit := do
  mute
  reporting cycle
  decayTimers

def run : Nat → Action Unit
  | 0 => return ()
  | n + 1 => do
      step
      run n

/-! ## Other calls -/

def load (program : List UInt8) : Action Unit :=
  if 3584 < program.length then raise (.romTooLarge program.length 3584)
  else do
    let stop ← sum sizeValues 512 program.length
    let h ← look id
    let memory ← withSlice h.memory 512 stop program
    change fun h => { h with memory := memory }
    change fun h => { h with pc := 512 }
    report (.loaded program.length)

/-- All is zero but the font in low memory and the program counter; the random stream stays. -/
def clear : Action Unit := do
  change fun h => { h with memory := .replicate Memory.size 0 }
  let h ← look id
  let memory ← withSlice h.memory 0 80 Font.glyphs
  change fun h =>
    { h with
      memory := memory
      registers := .replicate Machine.registerCount 0
      stack := .replicate CallStack.capacity 0
      depth := 0
      pc := 512
      index := 0
      delayTimer := 0
      soundTimer := 0
      tone := false
      display := .replicate Display.height (.replicate Display.width 0)
      keypad := .replicate Keypad.keyCount false }

def construct (random : Random.Generator) : Result Unit :=
  clear
    { pc := 512
      depth := 0
      stack := .replicate CallStack.capacity 0
      delayTimer := 0
      soundTimer := 0
      tone := false
      registers := .replicate Machine.registerCount 0
      index := 0
      memory := .replicate Memory.size 0
      display := .replicate Display.height (.replicate Display.width 0)
      keypad := .replicate Keypad.keyCount false
      random := random
      log := [] }

def setKey (key : UInt8) (down : Bool) : Action Unit := do
  let h ← look id
  if key.toNat < Keypad.keyCount then do
    let keypad ← withEntry h.keypad key.toNat down
    change fun h => { h with keypad := keypad }

def answer : Call → Action Unit
  | .load program => load program
  | .step => step
  | .run n => run n
  | .reset => clear
  | .setKeys keys => change fun h => { h with keypad := keys }
  | .keyDown key => setKey key true
  | .keyUp key => setKey key false

/-! ## Queries -/

/-- Is the cell in this column and row there and not zero? -/
def pixel (x y : Nat) : Action Bool := do
  let cell? ← look fun h => h.display[y]?.bind fun row => row[x]?
  return cell?.any (· ≠ 0)

/-- The register with this number, of which the low four bits count. -/
def registerAt (x : Nat) : Action UInt8 := register (x &&& 0xF)

end Chip8.Hardware
