import Chip8.Proofs.Timeline

/-!
# Runs

A run is a call of `step` after the other, up to the first one that fails. So it can be cut at any
place, and what commutes with the steps of a machine commutes with its runs.
-/

namespace Chip8

namespace Outcome

/-- Go on from here, unless there was a fault. -/
def andThen (o : Outcome) (next : Machine → Outcome) : Outcome :=
  match o.fault with
  | some _ => o
  | none => (next o.machine).after o.log

def map (f : Machine → Machine) (o : Outcome) : Outcome := { o with machine := f o.machine }

theorem andThen_of_fault {o : Outcome} {fault : Fault} (h : o.fault = some fault)
    (next : Machine → Outcome) : o.andThen next = o := by
  rw [andThen, h]

theorem andThen_of_success {o : Outcome} (h : o.fault = none) (next : Machine → Outcome) :
    o.andThen next = (next o.machine).after o.log := by
  rw [andThen, h]

theorem quiet_andThen (m : Machine) (next : Machine → Outcome) :
    (quiet m).andThen next = next m := rfl

theorem after_andThen (log : List Event) (o : Outcome) (next : Machine → Outcome) :
    (o.after log).andThen next = (o.andThen next).after log := by
  cases hfault : o.fault with
  | some fault => rw [andThen_of_fault hfault, andThen_of_fault (o := o.after log) hfault]
  | none =>
      rw [andThen_of_success hfault, andThen_of_success (o := o.after log) hfault, after_after]
      rfl

theorem andThen_assoc (o : Outcome) (second third : Machine → Outcome) :
    (o.andThen second).andThen third = o.andThen fun m => (second m).andThen third := by
  cases hfault : o.fault with
  | some fault =>
      rw [andThen_of_fault hfault, andThen_of_fault hfault, andThen_of_fault hfault]
  | none => rw [andThen_of_success hfault, andThen_of_success hfault, after_andThen]

end Outcome

namespace Machine

theorem run_succ_eq_andThen (m : Machine) (n : Nat) :
    m.run (n + 1) = m.step.andThen fun next => next.run n :=
  m.run_succ n

theorem run_add (m : Machine) (k n : Nat) :
    m.run (k + n) = (m.run k).andThen fun next => next.run n := by
  induction k generalizing m with
  | zero => rw [Nat.zero_add, run_zero, Outcome.quiet_andThen]
  | succ k ih =>
      rw [Nat.succ_add, run_succ_eq_andThen, run_succ_eq_andThen, Outcome.andThen_assoc]
      simp only [ih]

/-! ## Single steps -/

/-- All that is reported in the course of a history. -/
def report (m : Machine) : List Call → List Event
  | [] => []
  | call :: rest => (m.perform call).log ++ (m.perform call).machine.report rest

/-- What comes of `n` calls of `step`, of which the last one ends like this. -/
def stepping (m : Machine) (n : Nat) (fault : Option Fault) : Outcome :=
  ⟨m.after (.replicate n .step), fault, m.report (.replicate n .step)⟩

theorem stepping_succ (m : Machine) (n : Nat) (fault : Option Fault) :
    m.stepping (n + 1) fault = (m.step.machine.stepping n fault).after m.step.log := rfl

/-- After `k` calls of `step`, the next one. -/
def stepAfter (m : Machine) (k : Nat) : Outcome := (m.after (.replicate k .step)).step

/-- The first fault comes after `k` calls of `step` that succeed. -/
structure FailsAfter (m : Machine) (k : Nat) (fault : Fault) : Prop where
  succeeds : ∀ j < k, (m.stepAfter j).fault = none
  fails : (m.stepAfter k).fault = some fault

theorem FailsAfter.tail {m : Machine} {k : Nat} {fault : Fault} (h : m.FailsAfter (k + 1) fault) :
    m.step.fault = none ∧ m.step.machine.FailsAfter k fault :=
  ⟨h.succeeds 0 k.succ_pos, fun j hj => h.succeeds (j + 1) (Nat.succ_lt_succ hj), h.fails⟩

theorem run_of_success {m : Machine} {n : Nat} (h : ∀ k < n, (m.stepAfter k).fault = none) :
    m.run n = m.stepping n none := by
  induction n generalizing m with
  | zero => rfl
  | succ n ih =>
      have hstep : m.step.fault = none := h 0 n.succ_pos
      have hrest : m.step.machine.run n = m.step.machine.stepping n none :=
        ih fun k hk => h (k + 1) (Nat.succ_lt_succ hk)
      rw [run_succ_eq_andThen, Outcome.andThen_of_success hstep, stepping_succ, hrest]

theorem run_of_failsAfter {m : Machine} {k : Nat} {fault : Fault} (h : m.FailsAfter k fault)
    {n : Nat} (hk : k < n) : m.run n = m.stepping (k + 1) (some fault) := by
  obtain ⟨n, rfl⟩ : ∃ n', n = n' + 1 := ⟨n - 1, by omega⟩
  -- on the number of steps that succeed; each of them makes the run one shorter
  induction k generalizing m n with
  | zero =>
      have hfault : m.step.fault = some fault := h.fails
      rw [run_succ_eq_andThen, Outcome.andThen_of_fault hfault, stepping_succ, ← hfault]
      simp [Outcome.after, stepping, report]
  | succ k ih =>
      obtain ⟨hstep, hrest⟩ := h.tail
      obtain ⟨n, rfl⟩ : ∃ n', n = n' + 1 := ⟨n - 1, by omega⟩
      rw [run_succ_eq_andThen, Outcome.andThen_of_success hstep, stepping_succ,
        ih hrest n (by omega)]

theorem success_or_failsAfter (m : Machine) (n : Nat) :
    (∀ k < n, (m.stepAfter k).fault = none) ∨ ∃ k < n, ∃ fault, m.FailsAfter k fault := by
  induction n with
  | zero => exact Or.inl fun k hk => absurd hk (Nat.not_lt_zero k)
  | succ n ih =>
      rcases ih with hall | ⟨k, hk, hfails⟩
      · cases hfault : (m.stepAfter n).fault with
        | none =>
            refine Or.inl fun k hk => ?_
            rcases Nat.lt_succ_iff_lt_or_eq.1 hk with hlt | rfl
            · exact hall k hlt
            · exact hfault
        | some fault => exact Or.inr ⟨n, n.lt_succ_self, fault, hall, hfault⟩
      · exact Or.inr ⟨k, Nat.lt_succ_of_lt hk, hfails⟩

/-- A run fails if one of its steps does. It ends then with the first such step, and otherwise it
makes them all. Two runs in a row are one run, where the second one is left out after a fault. -/
theorem run_iterates_step (m : Machine) (n : Nat) :
    (∀ fault, (m.run n).fault = some fault ↔ ∃ k < n, m.FailsAfter k fault) ∧
      (∀ k fault, k < n → m.FailsAfter k fault →
        (m.run n).machine = m.after (.replicate (k + 1) .step) ∧
          (m.run n).log = m.report (.replicate (k + 1) .step)) ∧
      ((¬∃ k < n, ∃ fault, m.FailsAfter k fault) →
        m.run n = ⟨m.after (.replicate n .step), none, m.report (.replicate n .step)⟩) ∧
      ∀ later, m.run (n + later) =
        match (m.run n).fault with
        | some _ => m.run n
        | none => ((m.run n).machine.run later).after (m.run n).log := by
  refine ⟨fun fault => ⟨fun hfault => ?_, ?_⟩, ?_, ?_, m.run_add n⟩
  · rcases m.success_or_failsAfter n with hall | ⟨k, hk, cause, hfails⟩
    · rw [run_of_success hall] at hfault
      cases hfault
    · rw [run_of_failsAfter hfails hk] at hfault
      cases hfault
      exact ⟨k, hk, hfails⟩
  · rintro ⟨k, hk, hfails⟩
    rw [run_of_failsAfter hfails hk, stepping]
  · intro k fault hk hfails
    rw [run_of_failsAfter hfails hk]
    exact ⟨rfl, rfl⟩
  · intro hnone
    exact run_of_success ((m.success_or_failsAfter n).resolve_right hnone)

/-- A run of a thousand million steps ends with the second one, which fails. -/
theorem run_iterates_step_huge :
    let m := (withSeed 7).after [.load [0x60, 0x01, 0x00, 0x00]]
    (m.run 1000000000).fault = some (.illegalOpcode 0) ∧
      (m.run 1000000000).machine = m.after [.step, .step] ∧
        (m.run 1000000000).log = m.report [.step, .step] := by
  intro m
  have hfirst : (m.stepAfter 0).fault = none := by decide +kernel
  have hfails : m.FailsAfter 1 (.illegalOpcode 0) := by
    refine ⟨fun j hj => ?_, by decide +kernel⟩
    obtain rfl : j = 0 := by omega
    exact hfirst
  have hsteps : 1 < 1000000000 := by decide
  obtain ⟨hfault, hstate, -, -⟩ := run_iterates_step m 1000000000
  exact ⟨(hfault _).2 ⟨1, hsteps, hfails⟩, hstate 1 _ hsteps hfails⟩

/-! ## Two machines -/

/-- The machine has executed the instruction after it has reported this trace of it. -/
def pass (m : Machine) (trace : Event) (i : Instruction) : Outcome :=
  ⟨m.advance i, none, trace :: (m.awaits? i).toList.map .awaitingKey ++
    if (m.advance i).tone then [.toneTick] else []⟩

/-- Machines that agree on what a step looks at first stop at the same fault, or both of them execute
the same instruction. -/
theorem step_alike {m n : Machine} (hfetch : n.fetch = m.fetch)
    (hfault : ∀ i, n.fault? i = m.fault? i) (hpc : n.pc = m.pc)
    (hregisters : n.registers = m.registers) :
    (∃ log fault, m.step = m.stop log fault ∧ n.step = n.stop log fault) ∨
      ∃ trace i, m.next? = .ok i ∧ m.fault? i = none ∧ m.step = m.pass trace i ∧
        n.step = n.pass trace i := by
  have hnext' : n.next? = m.next? := by rw [next?, next?, hfetch]
  cases hnext : m.next? with
  | error fault =>
      refine Or.inl ⟨[], fault, step_of_next?_eq_error hnext, ?_⟩
      exact step_of_next?_eq_error (hnext'.trans hnext)
  | ok i =>
      obtain ⟨opcode, hm, -, hstep⟩ := step_of_next?_eq_ok hnext
      obtain ⟨opcode', hn, -, hstep'⟩ := step_of_next?_eq_ok (hnext'.trans hnext)
      obtain rfl : opcode' = opcode := Except.ok.inj (hn.symm.trans (hfetch.trans hm))
      rw [hfault, hpc, hregisters] at hstep'
      cases hi : m.fault? i with
      | some fault =>
          rw [hi] at hstep hstep'
          exact Or.inl ⟨_, fault, hstep, hstep'⟩
      | none =>
          rw [hi] at hstep hstep'
          exact Or.inr ⟨_, i, rfl, hi, hstep, hstep'⟩

/-! ## Changes that commute with steps -/

/-- A change of the machine that leaves alone what instructions are fetched from, what their faults
depend on and what is reported of them. -/
structure Hidden (f : Machine → Machine) : Prop where
  pc (m : Machine) : (f m).pc = m.pc
  memory (m : Machine) : (f m).memory = m.memory
  registers (m : Machine) : (f m).registers = m.registers
  stack (m : Machine) : (f m).stack = m.stack
  index (m : Machine) : (f m).index = m.index
  tone (m : Machine) : (f m).tone = m.tone
  mute (m : Machine) : { f m with tone := false } = f { m with tone := false }

theorem Hidden.fault? {f : Machine → Machine} (h : Hidden f) (m : Machine) (i : Instruction) :
    (f m).fault? i = m.fault? i :=
  fault?_congr (congrArg CallStack.depth (h.stack m)) (h.index m) i

theorem Hidden.fetch {f : Machine → Machine} (h : Hidden f) (m : Machine) :
    (f m).fetch = m.fetch := by
  rw [Machine.fetch, Machine.fetch, h.pc, h.memory]

theorem Hidden.next? {f : Machine → Machine} (h : Hidden f) (m : Machine) :
    (f m).next? = m.next? := by
  rw [Machine.next?, Machine.next?, h.fetch]

theorem Hidden.stop {f : Machine → Machine} (h : Hidden f) (m : Machine) (log : List Event)
    (fault : Fault) : (f m).stop log fault = (m.stop log fault).map f := by
  have hlog : log ++ [.faulted (f m).pc fault] = log ++ [.faulted m.pc fault] := by rw [h.pc]
  rw [Machine.stop, hlog, Outcome.map, Machine.stop, ← h.mute]

/-- A hidden change commutes with a step if it commutes with the instruction. -/
theorem Hidden.step {f : Machine → Machine} (h : Hidden f) {m : Machine}
    (hexecuted : ∀ i, m.stepDeed = .executed i →
      (f m).awaits? i = m.awaits? i ∧ (f m).advance i = f (m.advance i)) :
    (f m).step = m.step.map f := by
  rcases step_alike (h.fetch m) (h.fault? m) (h.pc m) (h.registers m) with
    ⟨log, fault, hm, hf⟩ | ⟨trace, i, hnext, hfault, hm, hf⟩
  · rw [hm, hf, h.stop]
  · obtain ⟨hawaits, hadvance⟩ := hexecuted i (stepDeed_of_executed hnext hfault)
    rw [hm, hf]
    simp only [pass, hawaits, hadvance, h.tone]
    rfl

/-- If a change of the machine commutes with every step of a kind, it commutes with runs that
consist of such steps. -/
theorem run_map {f : Machine → Machine} {P : Moment → Prop}
    (hstep : ∀ m : Machine, P ⟨m, m.stepDeed⟩ → (f m).step = m.step.map f) {m : Machine} {n : Nat}
    (hsteps : ∀ t ∈ m.steps n, P t) : (f m).run n = (m.run n).map f := by
  induction n generalizing m with
  | zero => rfl
  | succ n ih =>
      rw [steps] at hsteps
      obtain ⟨hfirst, hrest⟩ := List.forall_mem_cons.1 hsteps
      rw [run_succ_eq_andThen, run_succ_eq_andThen, hstep m hfirst]
      cases hfault : m.step.fault with
      | some fault =>
          rw [Outcome.andThen_of_fault hfault,
            Outcome.andThen_of_fault (o := m.step.map f) hfault]
      | none =>
          rw [hfault] at hrest
          rw [Outcome.andThen_of_success hfault,
            Outcome.andThen_of_success (o := m.step.map f) hfault]
          have hnext := ih hrest
          rw [Outcome.map, hnext]
          rfl

theorem Hidden.stepDeed {f : Machine → Machine} (h : Hidden f) (m : Machine) :
    (f m).stepDeed = m.stepDeed := by
  simp only [Machine.stepDeed, h.next?, h.fault?]

/-- The run of the changed machine takes the same steps, each on the changed machine. -/
theorem Hidden.steps {f : Machine → Machine} (h : Hidden f) {P : Moment → Prop}
    (hstep : ∀ m : Machine, P ⟨m, m.stepDeed⟩ → (f m).step = m.step.map f) {m : Machine} {n : Nat}
    (hsteps : ∀ t ∈ m.steps n, P t) :
    (f m).steps n = (m.steps n).map fun t => ⟨f t.before, t.deed⟩ := by
  induction n generalizing m with
  | zero => rfl
  | succ n ih =>
      rw [Machine.steps] at hsteps
      obtain ⟨hfirst, hrest⟩ := List.forall_mem_cons.1 hsteps
      rw [Machine.steps, Machine.steps, List.map_cons, h.stepDeed, hstep m hfirst, Outcome.map]
      cases hfault : m.step.fault with
      | some fault => rfl
      | none =>
          rw [hfault] at hrest
          exact congrArg _ (ih hrest)

end Machine

end Chip8
