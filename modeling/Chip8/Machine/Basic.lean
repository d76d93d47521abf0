import Chip8.CallStack
import Chip8.Display
import Chip8.Font
import Chip8.Keypad
import Chip8.Memory
import Chip8.Random.Generator

/-!
# The machine

The state of a machine, its state at power-on, and what a host can read off it. A reset brings
back the state at power-on but leaves the random stream where it is.
-/

namespace Chip8

abbrev Machine.registerCount : Nat := 16

structure Machine where
  /-- The address of the next instruction. -/
  pc : UInt16
  stack : CallStack
  delayTimer : UInt8
  soundTimer : UInt8
  /-- Did the sound timer run out in the latest step? -/
  tone : Bool
  /-- The registers V0 to VF. -/
  registers : Vector UInt8 Machine.registerCount
  /-- The index register I. -/
  index : UInt16
  memory : Memory
  display : Display
  keypad : Keypad
  random : Random.Generator
  deriving DecidableEq

namespace Machine

/-- Where a program is loaded, and where it starts. -/
def programStart : UInt16 := 0x200

/-- How many bytes of memory there are from `programStart` on. -/
def programLimit : Nat := Memory.size - programStart.toNat

@[simp] theorem toNat_programStart : programStart.toNat = 512 := rfl

@[simp] theorem programLimit_eq : programLimit = 3584 := rfl

/-- All is zero but the font at the foot of memory and the program counter. -/
def powerOn (random : Random.Generator) : Machine where
  pc := programStart
  stack := .empty
  delayTimer := 0
  soundTimer := 0
  tone := false
  registers := Vector.replicate registerCount 0
  index := 0
  memory := Memory.zero.store 0 Font.glyphs
  display := .blank
  keypad := .released
  random := random

/-- The memory of a new machine is what the font makes of zeros. -/
theorem install?_powerOn (random : Random.Generator) :
    Font.install? (List.replicate Memory.size 0) = some (powerOn random).memory.bytes.toList := by
  have hzero : Memory.zero.bytes.toList = List.replicate Memory.size 0 := Vector.toList_replicate
  rw [← hzero, Font.install?_toList]
  rfl

/-- A new machine whose random bytes are fixed by `seed`. -/
def withSeed (seed : UInt64) : Machine := powerOn (.ofSeed seed)

def reset (m : Machine) : Machine := powerOn m.random

/-! ## Registers -/

/-- The number of VF, which holds the flag of an instruction that gives one. -/
def flagRegister : Fin 16 := Fin.last 15

/-- The value of register `Vx`. -/
def v (m : Machine) (x : Fin 16) : UInt8 := m.registers.get x

def setV (m : Machine) (x : Fin 16) (value : UInt8) : Machine :=
  { m with registers := m.registers.set x.val value x.isLt }

/-- The register with this number, of which the low four bits count. -/
def register (m : Machine) (x : Nat) : UInt8 := m.registers[x % registerCount]?.getD 0

theorem getElem?_registers (m : Machine) (x : Fin 16) : m.registers[x.val]? = some (m.v x) :=
  Vector.getElem?_eq_getElem x.isLt

theorem v_setV (m : Machine) (x : Fin 16) (value : UInt8) (y : Fin 16) :
    (m.setV x value).v y = if y = x then value else m.v y := by
  have hset := (m.setV x value).getElem?_registers y
  rw [setV, Vector.getElem?_set, getElem?_registers] at hset
  by_cases h : y = x
  · subst h
    simpa [setV] using hset.symm
  · have hne : x.val ≠ y.val := fun e => h (Fin.ext e.symm)
    simpa [setV, h, hne] using hset.symm

theorem register_eq_v (m : Machine) (x : Fin 16) : m.register x = m.v x := by
  rw [register, Nat.mod_eq_of_lt x.isLt, getElem?_registers, Option.getD_some]

/-! ## Keys, screen and sound -/

def setKeys (m : Machine) (keys : Vector Bool Keypad.keyCount) : Machine :=
  { m with keypad := ⟨keys⟩ }

def keyDown (m : Machine) (key : UInt8) : Machine := { m with keypad := m.keypad.press key }

def keyUp (m : Machine) (key : UInt8) : Machine := { m with keypad := m.keypad.release key }

def isKeyPressed (m : Machine) (key : UInt8) : Bool := m.keypad.isPressed key

def pixel (m : Machine) (x y : Nat) : Bool := m.display.pixel x y

/-- Should the buzzer sound now? -/
def soundActive (m : Machine) : Bool := m.soundTimer != 0

end Machine

end Chip8
