import Chip8.Proofs.Timeline

/-!
# Faults are terminal

Whether a step fails depends neither on the tone nor on the keys, and a step that fails changes
nothing but the tone. So a machine that fails keeps failing in the same way, whatever the host
tries, until it is reset or gets another program.
-/

namespace Chip8

namespace Call

/-- Does the call make at least one step? -/
def tries : Call → Bool
  | .step => true
  | .run n => 0 < n
  | _ => false

/-- Does the call reset the machine or give it another program? -/
def restarts : Call → Bool
  | .load program => program.length ≤ Machine.programLimit
  | .reset => true
  | _ => false

end Call

namespace Machine

variable {m : Machine} {fault : Fault}

/-- The machine with another tone and other keys. -/
def retuned (m : Machine) (tone : Bool) (keypad : Keypad) : Machine :=
  { m with tone := tone, keypad := keypad }

theorem step_fault_retuned (m : Machine) (tone : Bool) (keypad : Keypad) :
    (m.retuned tone keypad).step.fault = m.step.fault := by
  have hnext : (m.retuned tone keypad).next? = m.next? := rfl
  have hcause : ∀ i, (m.retuned tone keypad).fault? i = m.fault? i := fault?_congr rfl rfl
  apply Option.ext
  intro fault
  rw [step_fault_eq_some_iff, step_fault_eq_some_iff, hnext]
  simp only [hcause]

/-- Unless a call restarts a failing machine, it leaves all but the tone and the keys, and if it
makes a step it fails in the same way. -/
theorem perform_of_fault (hfault : m.step.fault = some fault) {call : Call}
    (hcall : call.restarts = false) :
    (∃ keypad, (m.perform call).machine = m.retuned (m.tone && !call.tries) keypad) ∧
      (call.tries = true → (m.perform call).fault = some fault) := by
  have hquiet : ∀ keypad, { m with keypad := keypad } = m.retuned (m.tone && !false) keypad := by
    simp [retuned]
  have hstop : m.step.machine = m.retuned (m.tone && !true) m.keypad := by
    rw [machine_step_of_fault hfault]
    simp [retuned]
  cases call with
  | load program =>
      have hlarge : programLimit < program.length :=
        Nat.lt_of_not_le (of_decide_eq_false hcall)
      rw [perform, load, if_pos hlarge]
      exact ⟨⟨m.keypad, hquiet m.keypad⟩, fun h => absurd h Bool.false_ne_true⟩
  | step => exact ⟨⟨m.keypad, hstop⟩, fun _ => hfault⟩
  | run n =>
      cases n with
      | zero => exact ⟨⟨m.keypad, hquiet m.keypad⟩, fun h => absurd h Bool.false_ne_true⟩
      | succ n =>
          have hrun : m.run (n + 1) = m.step := by simp [run_succ, hfault]
          rw [perform, hrun]
          exact ⟨⟨m.keypad, hstop⟩, fun _ => hfault⟩
  | reset => cases hcall
  | setKeys keys | keyDown key | keyUp key =>
      exact ⟨⟨_, hquiet _⟩, fun h => absurd h Bool.false_ne_true⟩

theorem after_of_fault (hfault : m.step.fault = some fault) {calls : List Call}
    (hcalls : ∀ call ∈ calls, call.restarts = false) :
    ∃ keypad, m.after calls = m.retuned (m.tone && !calls.any Call.tries) keypad := by
  induction calls generalizing m with
  | nil => exact ⟨m.keypad, by simp [retuned]⟩
  | cons call rest ih =>
      obtain ⟨⟨keypad, hmachine⟩, -⟩ := perform_of_fault hfault (hcalls call List.mem_cons_self)
      have hstill : (m.perform call).machine.step.fault = some fault := by
        rw [hmachine, step_fault_retuned, hfault]
      obtain ⟨keypad', hrest⟩ := ih hstill fun c hc => hcalls c (List.mem_cons_of_mem call hc)
      refine ⟨keypad', ?_⟩
      rw [after_cons, hrest, hmachine]
      simp [retuned, Bool.and_assoc]

theorem step_fault_after (hfault : m.step.fault = some fault) {calls : List Call}
    (hcalls : ∀ call ∈ calls, call.restarts = false) :
    (m.after calls).step.fault = some fault := by
  obtain ⟨keypad, hafter⟩ := after_of_fault hfault hcalls
  rw [hafter, step_fault_retuned, hfault]

/-- Once a step of a machine fails, every step and every run that makes one fails in the same way,
and nothing changes but the tone, which falls silent, and the keys. Only a reset or another
program can end this. -/
theorem fault_is_terminal (hfault : m.step.fault = some fault) (calls : List Call) :
    ((∀ call ∈ calls, call.restarts = false) →
      (∀ earlier, earlier <+: calls →
        ∃ keypad, m.after earlier =
          { m with tone := m.tone && !earlier.any Call.tries, keypad := keypad }) ∧
      ∀ earlier call, earlier ++ [call] <+: calls → call.tries = true →
        ((m.after earlier).perform call).fault = some fault) ∧
      ((m.after calls).step.fault ≠ some fault → ∃ call ∈ calls, call.restarts = true) := by
  refine ⟨fun hcalls => ⟨?_, ?_⟩, ?_⟩
  · intro earlier hinit
    exact after_of_fault hfault fun call hcall => hcalls call (hinit.subset hcall)
  · intro earlier call hinit htries
    have hearlier : ∀ c ∈ earlier, c.restarts = false := fun c hc =>
      hcalls c (hinit.subset (List.mem_append_left _ hc))
    have hcall : call.restarts = false := hcalls call (hinit.subset (by simp))
    exact (perform_of_fault (step_fault_after hfault hearlier) hcall).2 htries
  · intro hleft
    apply Classical.byContradiction
    intro hnone
    refine hleft (step_fault_after hfault fun call hcall => ?_)
    rw [← Bool.not_eq_true]
    exact fun h => hnone ⟨call, hcall, h⟩

/-- A return without a call fails while the tone sounds, and goes on failing in silence. -/
theorem fault_is_terminal_underflow :
    let m := (powerOn (.ofSeed 7)).after [.load [0x60, 0x01, 0xF0, 0x18, 0x00, 0xEE], .run 2]
    let calls : List Call := [.keyDown 5, .step, .keyUp 5, .run 3, .load (.replicate 4000 0)]
    m.step.fault = some .stackUnderflow ∧ (∀ call ∈ calls, call.restarts = false) ∧
      m.tone = true ∧ (∃ keypad, m.after calls = { m with tone := false, keypad := keypad }) ∧
        ((m.after [.keyDown 5, .step, .keyUp 5]).perform (.run 3)).fault =
          some .stackUnderflow := by
  intro m calls
  have hfault : m.step.fault = some .stackUnderflow := by decide +kernel
  have hcalls : ∀ call ∈ calls, call.restarts = false := by decide +kernel
  have htone : m.tone = true := by decide +kernel
  obtain ⟨hstate, hfails⟩ := (fault_is_terminal hfault calls).1 hcalls
  obtain ⟨keypad, hafter⟩ := hstate calls (List.prefix_rfl)
  have htries : calls.any Call.tries = true := rfl
  rw [htries, Bool.not_true, Bool.and_false] at hafter
  refine ⟨hfault, hcalls, htone, ⟨keypad, hafter⟩, hfails _ _ ?_ rfl⟩
  exact ⟨[.load (.replicate 4000 0)], rfl⟩

end Machine

end Chip8
