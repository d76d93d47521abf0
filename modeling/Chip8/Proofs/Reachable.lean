import Chip8.Machine.Call

/-!
# Reachable machines

A machine is reachable if some history of calls, whether they succeed or not, leads to it from its
construction. What holds of a new machine and is kept by a load, a step and a change of the keys
holds of every reachable machine.
-/

namespace Chip8.Machine

/-! ## What a step does -/

/-- The two bytes at the program counter as one word. -/
def opcode (m : Machine) : UInt16 :=
  .ofNat (256 * (m.memory.read m.pc.toNat).toNat + (m.memory.read (m.pc.toNat + 1)).toNat)

theorem fetch_of_le {m : Machine} (hpc : m.pc.toNat ≤ 0xFFE) : m.fetch = .ok m.opcode := by
  have hroom : ¬4096 ≤ m.pc.toNat + 1 := by omega
  simp [fetch, opcode, hroom]

theorem fetch_of_lt {m : Machine} (hpc : 0xFFE < m.pc.toNat) :
    m.fetch = .error (.pcOutOfBounds m.pc) := by
  have hroom : 4096 ≤ m.pc.toNat + 1 := by omega
  simp [fetch, hroom]

/-- The instruction that the next step executes, or why there is none. -/
def next? (m : Machine) : Except Fault Instruction :=
  match m.fetch with
  | .error fault => .error fault
  | .ok opcode => Instruction.decode opcode

theorem next?_eq_ok_iff (m : Machine) (i : Instruction) :
    m.next? = .ok i ↔ m.pc.toNat ≤ 0xFFE ∧ Instruction.ofOpcode? m.opcode = some i := by
  by_cases hpc : m.pc.toNat ≤ 0xFFE
  · cases hi : Instruction.ofOpcode? m.opcode <;>
      simp [next?, fetch_of_le hpc, Instruction.decode, hi, hpc]
  · simp [next?, fetch_of_lt (Nat.lt_of_not_le hpc), hpc]

theorem next?_eq_error_iff (m : Machine) (fault : Fault) :
    m.next? = .error fault ↔
      0xFFE < m.pc.toNat ∧ fault = .pcOutOfBounds m.pc ∨
        m.pc.toNat ≤ 0xFFE ∧ Instruction.ofOpcode? m.opcode = none ∧
          fault = .illegalOpcode m.opcode := by
  by_cases hpc : m.pc.toNat ≤ 0xFFE
  · cases hi : Instruction.ofOpcode? m.opcode <;>
      simp [next?, fetch_of_le hpc, Instruction.decode, hi, hpc, Nat.not_lt.2 hpc, eq_comm]
  · simp [next?, fetch_of_lt (Nat.lt_of_not_le hpc), hpc, Nat.lt_of_not_le hpc, eq_comm]

theorem step_of_next?_eq_error {m : Machine} {fault : Fault} (h : m.next? = .error fault) :
    m.step = m.stop [] fault := by
  unfold next? at h
  unfold step
  cases hfetch : m.fetch with
  | error e =>
      rw [hfetch] at h
      cases h
      rfl
  | ok opcode =>
      simp only [hfetch] at h
      simp only [h]

theorem step_of_next?_eq_ok {m : Machine} {i : Instruction} (h : m.next? = .ok i) :
    ∃ opcode, m.fetch = .ok opcode ∧ Instruction.decode opcode = .ok i ∧
      m.step =
        match m.fault? i with
        | some fault => m.stop [.executing m.pc opcode i m.registers] fault
        | none =>
            ⟨m.advance i, none, .executing m.pc opcode i m.registers ::
              (m.awaits? i).toList.map .awaitingKey ++
                if (m.advance i).tone then [.toneTick] else []⟩ := by
  unfold next? at h
  cases hfetch : m.fetch with
  | error e =>
      rw [hfetch] at h
      cases h
  | ok opcode =>
      simp only [hfetch] at h
      refine ⟨opcode, rfl, h, ?_⟩
      cases hfault : m.fault? i with
      | some fault => simp only [step, hfetch, h, hfault]
      | none => simp only [step, hfetch, h, hfault]

/-- A step ends at a fault and leaves all but the tone, or it executes an instruction. -/
theorem step_cases (m : Machine) :
    (∃ fault log, m.step = ⟨{ m with tone := false }, some fault, log⟩) ∨
      ∃ i log, m.next? = .ok i ∧ m.fault? i = none ∧ m.step = ⟨m.advance i, none, log⟩ := by
  cases hnext : m.next? with
  | error fault => exact Or.inl ⟨fault, _, step_of_next?_eq_error hnext⟩
  | ok i =>
      obtain ⟨opcode, -, -, hstep⟩ := step_of_next?_eq_ok hnext
      cases hfault : m.fault? i with
      | some fault =>
          rw [hfault] at hstep
          exact Or.inl ⟨fault, _, hstep⟩
      | none =>
          rw [hfault] at hstep
          exact Or.inr ⟨i, _, rfl, hfault, hstep⟩

theorem step_fault_eq_some_iff (m : Machine) (fault : Fault) :
    m.step.fault = some fault ↔
      m.next? = .error fault ∨ ∃ i, m.next? = .ok i ∧ m.fault? i = some fault := by
  cases hnext : m.next? with
  | error e => simp [step_of_next?_eq_error hnext, stop]
  | ok i =>
      obtain ⟨opcode, -, -, hstep⟩ := step_of_next?_eq_ok hnext
      cases hfault : m.fault? i <;> simp [hstep, hfault, stop]

theorem pc_le_of_next?_eq_ok {m : Machine} {i : Instruction} (h : m.next? = .ok i) :
    m.pc.toNat ≤ 0xFFE := ((m.next?_eq_ok_iff i).1 h).1

/-! ## Histories -/

/-- Some history of calls leads to this machine from a construction with some random stream. -/
def Reachable (m : Machine) : Prop :=
  ∃ random history, m = (powerOn random).after history

theorem Reachable.powerOn (random : Random.Generator) : (powerOn random).Reachable :=
  ⟨random, [], rfl⟩

theorem Reachable.after {m : Machine} (hm : m.Reachable) (history : List Call) :
    (m.after history).Reachable := by
  obtain ⟨random, past, rfl⟩ := hm
  exact ⟨random, past ++ history, (after_append _ past history).symm⟩

theorem Reachable.perform {m : Machine} (hm : m.Reachable) (call : Call) :
    (m.perform call).machine.Reachable :=
  hm.after [call]

theorem run_invariant {P : Machine → Prop} (hstep : ∀ m : Machine, P m → P m.step.machine)
    {m : Machine} (hm : P m) (n : Nat) : P (m.run n).machine := by
  induction n generalizing m with
  | zero => exact hm
  | succ n ih =>
      rw [run_succ]
      cases m.step.fault with
      | some fault => exact hstep m hm
      | none => exact ih (hstep m hm)

/-- What holds of every new machine and is kept by a load, a step and any change of the keys is kept
by every history. -/
theorem after_invariant {P : Machine → Prop} (hnew : ∀ random, P (Machine.powerOn random))
    (hload : ∀ (m : Machine) program, P m → P (m.load program).machine)
    (hstep : ∀ m : Machine, P m → P m.step.machine)
    (hkeys : ∀ (m : Machine) keypad, P m → P { m with keypad := keypad })
    {m : Machine} (hm : P m) (history : List Call) : P (m.after history) := by
  have hperform : ∀ (m : Machine) call, P m → P (m.perform call).machine := by
    intro m call h
    cases call with
    | load program => exact hload m program h
    | step => exact hstep m h
    | run n => exact run_invariant hstep h n
    | reset => exact hnew m.random
    | setKeys keys => exact hkeys m _ h
    | keyDown key => exact hkeys m _ h
    | keyUp key => exact hkeys m _ h
  induction history generalizing m with
  | nil => exact hm
  | cons call rest ih => exact ih (hperform m call hm)

theorem Reachable.invariant {P : Machine → Prop} (hnew : ∀ random, P (Machine.powerOn random))
    (hload : ∀ (m : Machine) program, P m → P (m.load program).machine)
    (hstep : ∀ m : Machine, P m → P m.step.machine)
    (hkeys : ∀ (m : Machine) keypad, P m → P { m with keypad := keypad })
    {m : Machine} (hm : m.Reachable) : P m := by
  obtain ⟨random, history, rfl⟩ := hm
  exact after_invariant hnew hload hstep hkeys (hnew random) history

end Chip8.Machine
