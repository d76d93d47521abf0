import Chip8.Proofs.Hardware.Simulation

/-!
# Safety of every history

A history of calls can be replayed on the hardware, where each access can crash and a fault keeps
what was written before it. The replay never crashes and stays on the image of the machine. So the
bounds hold of the hardware as well, and a fault finds it without any write.
-/

namespace Chip8.Hardware

/-- The state in which an action ends, unless it crashes. -/
def Result.state? : Result Unit → Option Hardware
  | .done _ h => some h
  | .fault _ h => some h
  | .crash => none

/-- The hardware after further calls, whether they succeed or fault. -/
def resume (h : Hardware) : List Call → Option Hardware
  | [] => some h
  | call :: rest => (answer call h).state?.bind fun next => next.resume rest

/-- New hardware after a history of calls, unless something crashes. -/
def replay (random : Random.Generator) (history : List Call) : Option Hardware :=
  (construct random).state?.bind fun h => h.resume history

theorem state?_ofOutcome (log : List Event) (o : Outcome) :
    (Result.ofOutcome log o).state? = some (ofMachine (log ++ o.log) o.machine) := by
  cases hfault : o.fault with
  | none => simp only [Result.ofOutcome, hfault, Result.state?]
  | some fault => simp only [Result.ofOutcome, hfault, Result.state?]

theorem ofOutcome_ne_crash (log : List Event) (o : Outcome) :
    Result.ofOutcome log o ≠ .crash := by
  intro hcrash
  have hstate := state?_ofOutcome log o
  rw [hcrash] at hstate
  cases hstate

/-- Calls lead from the image of a machine to the image of the machine after them. -/
theorem resume_ofMachine {m : Machine} (hm : m.Reachable) (log : List Event)
    (history : List Call) :
    ∃ log', (ofMachine log m).resume history = some (ofMachine log' (m.after history)) := by
  induction history generalizing m log with
  | nil => exact ⟨log, rfl⟩
  | cons call rest ih =>
      have hanswer := answer_ofMachine log m hm.bounded call
      obtain ⟨log', hrest⟩ := ih (hm.perform call) (log ++ (m.perform call).log)
      refine ⟨log', ?_⟩
      rw [resume, hanswer, state?_ofOutcome, Machine.after_cons, ← hrest]
      rfl

theorem replay_eq (random : Random.Generator) (history : List Call) :
    ∃ log, replay random history =
      some (ofMachine log ((Machine.powerOn random).after history)) := by
  obtain ⟨log, hresume⟩ := resume_ofMachine (Machine.Reachable.powerOn random) [] history
  refine ⟨log, ?_⟩
  rw [replay, construct_eq, ← hresume]
  rfl

theorem replay_step_of_success (random : Random.Generator) (history : List Call)
    (hok : ((Machine.powerOn random).after history).step.fault = none) :
    let m := (Machine.powerOn random).after history
    ∃ log h, replay random history = some h ∧ h = ofMachine log m ∧
      step h = .done () (ofMachine (log ++ m.step.log) m.step.machine) := by
  intro m
  have hm : m.Reachable := ⟨random, history, rfl⟩
  obtain ⟨log, hreplay⟩ := replay_eq random history
  have hstep := step_ofMachine log m hm.bounded.depth_le
  rw [Result.ofOutcome, show m.step.fault = none from hok] at hstep
  exact ⟨log, _, hreplay, rfl, hstep⟩

theorem cells_zero_or_one (d : Display) {x y : Nat} (hx : x < 64) (hy : y < 32) :
    (cells d)[y][x] = 0 ∨ (cells d)[y][x] = 1 := by
  rw [getElem_cells d hx hy]
  cases d.pixel x y with
  | true => exact Or.inr rfl
  | false => exact Or.inl rfl

/-- No history crashes the hardware, and after it neither the next call nor a query does,
whatever their arguments: each ends as it does on the machine. -/
theorem never_crashes (random : Random.Generator) (history : List Call) :
    let m := (Machine.powerOn random).after history
    ∃ log h, replay random history = some h ∧ h = ofMachine log m ∧
      (∀ call, answer call h ≠ .crash ∧ answer call h = Result.ofOutcome log (m.perform call)) ∧
      (∀ x y, pixel x y h = .done (m.pixel x y) h) ∧
      (∀ x, registerAt x h = .done (m.register x) h) ∧
      ∀ key, isKeyPressed key h = .done (m.isKeyPressed key) h := by
  intro m
  have hm : m.Reachable := ⟨random, history, rfl⟩
  obtain ⟨log, hreplay⟩ := replay_eq random history
  refine ⟨log, ofMachine log m, hreplay, rfl, ?_, ?_, ?_, ?_⟩
  · intro call
    have hanswer := answer_ofMachine log m hm.bounded call
    exact ⟨hanswer ▸ ofOutcome_ne_crash log (m.perform call), hanswer⟩
  · exact pixel_ofMachine log m
  · exact registerAt_ofMachine log m
  · exact isKeyPressed_ofMachine log m

/-- The bounds that hold after every history, and the additions that therefore do not wrap. -/
theorem bounds_of_replay (random : Random.Generator) (history : List Call) :
    ∃ log h, replay random history = some h ∧
      h = ofMachine log ((Machine.powerOn random).after history) ∧
      h.depth ≤ 16 ∧ (∀ slot ∈ h.stack, slot.toNat ≤ 0xFFE) ∧ h.pc.toNat ≤ 0x10FE ∧
      (∀ x y (hx : x < 64) (hy : y < 32), h.display[y][x] = 0 ∨ h.display[y][x] = 1) ∧
      (h.tone = true → h.soundTimer = 0) ∧
      (h.pc + 2).toNat = h.pc.toNat + 2 ∧ (h.pc + 4).toNat = h.pc.toNat + 4 ∧
      ∀ slot ∈ h.stack, (slot + 2).toNat = slot.toNat + 2 := by
  obtain ⟨log, hreplay⟩ := replay_eq random history
  have hm : ((Machine.powerOn random).after history).Bounded :=
    Machine.Reachable.bounded ⟨random, history, rfl⟩
  refine ⟨log, _, hreplay, rfl, hm.depth_le, hm.slot_le, hm.pc_le,
    fun x y hx hy => cells_zero_or_one _ hx hy, hm.soundTimer_of_tone,
    Machine.toNat_add_two hm.pc_le, Machine.toNat_add_four hm.pc_le, ?_⟩
  intro slot hslot
  have hle : slot.toNat ≤ 0xFFE := hm.slot_le slot hslot
  exact Machine.toNat_add_two (Nat.le_trans hle (by decide))

/-- A step that faults leaves every part of the machine but the tone, and on the hardware, too,
nothing was written before the fault. -/
theorem step_fault_atomic (random : Random.Generator) (history : List Call) {fault : Fault}
    (hfault : ((Machine.powerOn random).after history).step.fault = some fault) :
    let m := (Machine.powerOn random).after history
    m.step.machine = { m with tone := false } ∧
      ∃ h, replay random history = some h ∧
        step h = .fault fault { h with tone := false, log := h.log ++ m.step.log } := by
  intro m
  have hm : m.Reachable := ⟨random, history, rfl⟩
  have hstop : m.step.fault = some fault := hfault
  have hmachine : m.step.machine = { m with tone := false } := by
    rcases m.step_cases with ⟨cause, log, hstep⟩ | ⟨i, log, -, -, hstep⟩
    · rw [hstep]
    · have hnone : m.step.fault = none := by rw [hstep]
      rw [hnone] at hstop
      cases hstop
  obtain ⟨log, hreplay⟩ := replay_eq random history
  refine ⟨hmachine, ofMachine log m, hreplay, ?_⟩
  have hstep := step_ofMachine log m hm.bounded.depth_le
  simp only [Result.ofOutcome, hstop, hmachine] at hstep
  exact hstep

/-- Storing `V0` to `V2` from the last but one byte on: the range ends one byte behind memory. -/
theorem step_fault_atomic_overrun :
    let history : List Call := [.load [0xAF, 0xFE, 0xF2, 0x55], .step]
    let m := (Machine.powerOn (.ofSeed 7)).after history
    m.step.fault = some (.memoryOutOfBounds 4096) ∧ m.step.machine = { m with tone := false } ∧
      ∃ h, replay (.ofSeed 7) history = some h ∧
        step h = .fault (.memoryOutOfBounds 4096)
          { h with tone := false, log := h.log ++ m.step.log } := by
  intro history m
  have hfault : m.step.fault = some (.memoryOutOfBounds 4096) := by decide +kernel
  exact ⟨hfault, step_fault_atomic (.ofSeed 7) history hfault⟩

end Chip8.Hardware
