import Chip8.Instruction.Decode
import Chip8.Machine.Execute
import Chip8.Machine.Outcome

/-!
# Steps and runs

A step fetches the opcode at the program counter, decodes it, and either stops at a fault or
executes the instruction and lets both timers run down by one. A fault changes nothing but the
tone. A run is so many steps, cut short by the first fault; `run_succ` says how it unfolds.
-/

namespace Chip8.Machine

/-! ## One step -/

/-- The two bytes at the program counter, the high one first. -/
def fetch (m : Machine) : Except Fault UInt16 :=
  if Memory.size ≤ m.pc.toNat + 1 then .error (.pcOutOfBounds m.pc)
  else
    let high := m.memory.read m.pc.toNat
    let low := m.memory.read (m.pc.toNat + 1)
    .ok (.ofNat (256 * high.toNat + low.toNat))

/-- A timer one tick later. -/
def countDown (timer : UInt8) : UInt8 := .ofNat (timer.toNat - 1)

/-- Both timers run down by one; the tone sounds if this stops the sound timer. -/
def tick (m : Machine) : Machine :=
  { m with
    delayTimer := countDown m.delayTimer
    soundTimer := countDown m.soundTimer
    tone := m.soundTimer = 1 }

/-- The machine after it has executed an instruction. -/
def advance (m : Machine) (i : Instruction) : Machine :=
  let pc := m.nextPc i
  tick { m.effect i with pc := pc }

/-- The machine stops at a fault, which is reported after the events so far. -/
def stop (m : Machine) (log : List Event) (fault : Fault) : Outcome :=
  ⟨{ m with tone := false }, some fault, log ++ [.faulted m.pc fault]⟩

/-- The register for which the instruction keeps the machine waiting, if it does. -/
def awaits? (m : Machine) : Instruction → Option (Fin 16)
  | .waitForKey x => if m.keypad.lowest? = none then some x else none
  | _ => none

def step (m : Machine) : Outcome :=
  match m.fetch with
  | .error fault => m.stop [] fault
  | .ok opcode =>
      match Instruction.decode opcode with
      | .error fault => m.stop [] fault
      | .ok i =>
          let trace := .executing m.pc opcode i m.registers
          match m.fault? i with
          | some fault => m.stop [trace] fault
          | none =>
              let waiting := (m.awaits? i).toList.map .awaitingKey
              let next := m.advance i
              let ticking := if next.tone then [.toneTick] else []
              ⟨next, none, trace :: waiting ++ ticking⟩

/-! ## Runs -/

/-- A run of `n` steps after the events of `past`, the latest of which comes first. -/
def runAfter (m : Machine) (past : List Event) : Nat → Outcome
  | 0 => ⟨m, none, past.reverse⟩
  | n + 1 =>
      match m.step with
      | ⟨next, none, log⟩ => next.runAfter (log.reverse ++ past) n
      | ⟨stopped, some fault, log⟩ => ⟨stopped, some fault, past.reverse ++ log⟩

def run (m : Machine) (n : Nat) : Outcome := m.runAfter [] n

theorem runAfter_eq (m : Machine) (past : List Event) (n : Nat) :
    m.runAfter past n = (m.run n).after past.reverse := by
  induction n generalizing m past with
  | zero => simp [run, runAfter, Outcome.after]
  | succ n ih =>
      simp only [run, runAfter]
      split
      · rw [ih, ih _ (_ ++ [])]
        simp [Outcome.after]
      · simp [Outcome.after]

@[simp] theorem run_zero (m : Machine) : m.run 0 = .quiet m := rfl

theorem run_succ (m : Machine) (n : Nat) :
    m.run (n + 1) =
      match m.step.fault with
      | some _ => m.step
      | none => (m.step.machine.run n).after m.step.log := by
  conv => lhs; rw [run, runAfter]
  split
  next next log h => simp [h, runAfter_eq]
  next stopped fault log h => simp [h]

end Chip8.Machine
