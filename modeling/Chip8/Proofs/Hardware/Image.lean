import Chip8.Proofs.Hardware.Call

/-!
# Machines as hardware

Every machine has an image on the hardware, with one cell to a pixel. An access to the image of a
machine leads to the image of a machine again.
-/

namespace Chip8.Hardware

/-- The cells of a display, each of which is 0 or 1. -/
def cells (d : Display) : Vector (Vector UInt8 64) 32 :=
  .ofFn fun y => .ofFn fun x => flag (d.pixel x.val y.val)

/-- The hardware that holds a machine after these reports. -/
def ofMachine (log : List Event) (m : Machine) : Hardware where
  pc := m.pc
  depth := m.stack.depth
  stack := m.stack.slots
  delayTimer := m.delayTimer
  soundTimer := m.soundTimer
  tone := m.tone
  registers := m.registers
  index := m.index
  memory := m.memory.bytes
  display := cells m.display
  keypad := m.keypad.keys
  random := m.random
  log := log

section fields

variable (log : List Event) (m : Machine)

@[simp] theorem pc_ofMachine : (ofMachine log m).pc = m.pc := rfl

@[simp] theorem depth_ofMachine : (ofMachine log m).depth = m.stack.depth := rfl

@[simp] theorem stack_ofMachine : (ofMachine log m).stack = m.stack.slots := rfl

@[simp] theorem registers_ofMachine : (ofMachine log m).registers = m.registers := rfl

@[simp] theorem index_ofMachine : (ofMachine log m).index = m.index := rfl

@[simp] theorem memory_ofMachine : (ofMachine log m).memory = m.memory.bytes := rfl

@[simp] theorem display_ofMachine : (ofMachine log m).display = cells m.display := rfl

@[simp] theorem keypad_ofMachine : (ofMachine log m).keypad = m.keypad.keys := rfl

@[simp] theorem random_ofMachine : (ofMachine log m).random = m.random := rfl

end fields

/-- What becomes of a call that has this outcome on a machine. -/
def Result.ofOutcome (log : List Event) (o : Outcome) : Result Unit :=
  match o.fault with
  | none => .done () (ofMachine (log ++ o.log) o.machine)
  | some cause => .fault cause (ofMachine (log ++ o.log) o.machine)

end Chip8.Hardware
