import Chip8.Proofs.Keys

/-!
# Waiting for a key

While no key is down, a machine that waits for one executes the same instruction over and over, and
only its timers move. So a wait of any length keeps the machine ready to take a key: the first step
after one is put down goes on as if there had been no wait, on timers that have run on.
-/

namespace Chip8

namespace Machine

/-- In `n` steps the timers of the machine have run down, the tone sounds if the last of these steps
has stopped the sound timer, and nothing else has changed. -/
structure Waits (m : Machine) (n : Nat) (held : Machine) : Prop where
  delayTimer : held.delayTimer.toNat = m.delayTimer.toNat - n
  soundTimer : held.soundTimer.toNat = m.soundTimer.toNat - n
  tone : held.tone = true ↔ m.soundTimer.toNat = n
  rest : held = { m with
    delayTimer := held.delayTimer
    soundTimer := held.soundTimer
    tone := held.tone }

/-- The step from here ends a wait of `m` after `n` held steps: it moves the least key that is down
into `Vx` and goes on to the next instruction, and the timers run down once more. -/
structure EndsWait (m : Machine) (n : Nat) (x : Fin 16) (ready : Machine) : Prop where
  ok : ready.step.fault = none
  takes : ∃ key, IsLeast {key | ready.isKeyPressed key = true} key ∧ ready.step.machine.v x = key ∧
    ready.step.machine = ({ ready.setV x key with pc := m.pc + 2 } : Machine).tick
  pc : ready.step.machine.pc.toNat = m.pc.toNat + 2
  delayTimer : ready.step.machine.delayTimer.toNat = m.delayTimer.toNat - (n + 1)
  soundTimer : ready.step.machine.soundTimer.toNat = m.soundTimer.toNat - (n + 1)

theorem waits_tick (m : Machine) : m.Waits 1 m.tick where
  delayTimer := toNat_countDown m.delayTimer
  soundTimer := toNat_countDown m.soundTimer
  tone := m.tone_tick
  rest := rfl

namespace Waits

variable {m held : Machine} {n : Nat}

theorem next? (h : m.Waits n held) : held.next? = m.next? := by
  rw [h.rest]
  rfl

theorem pc (h : m.Waits n held) : held.pc = m.pc := by
  rw [h.rest]

theorem keypad (h : m.Waits n held) : held.keypad = m.keypad := by
  rw [h.rest]

theorem tick (h : m.Waits n held) : m.Waits (n + 1) held.tick where
  delayTimer := by
    change (countDown held.delayTimer).toNat = _
    rw [toNat_countDown, h.delayTimer, Nat.sub_sub]
  soundTimer := by
    change (countDown held.soundTimer).toNat = _
    rw [toNat_countDown, h.soundTimer, Nat.sub_sub]
  tone := by
    rw [tone_tick, h.soundTimer]
    omega
  rest := by
    rw [h.rest]
    rfl

end Waits

/-- One held step. -/
theorem step_waits {m : Machine} {x : Fin 16} (hnext : m.next? = .ok (.waitForKey x))
    (hup : m.keypad.lowest? = none) : m.step.fault = none ∧ m.step.machine = m.tick := by
  obtain ⟨hok, hmachine⟩ := step_waitForKey hnext
  rw [hup] at hmachine
  exact ⟨hok, hmachine⟩

/-- The held steps: each of them finds the same instruction and the same keys. -/
theorem run_waits {m : Machine} {x : Fin 16} (hnext : m.next? = .ok (.waitForKey x))
    (hup : m.keypad.lowest? = none) {n : Nat} (hn : 1 ≤ n) :
    (m.run n).fault = none ∧ m.Waits n (m.run n).machine := by
  induction n, hn using Nat.le_induction with
  | base =>
      obtain ⟨hok, hmachine⟩ := step_waits hnext hup
      rw [m.run_succ_eq_andThen 0, Outcome.andThen_of_success hok, hmachine]
      exact ⟨rfl, m.waits_tick⟩
  | succ n hn ih =>
      obtain ⟨hrun, hheld⟩ := ih
      obtain ⟨hok, hmachine⟩ := step_waits (hheld.next?.trans hnext) (hheld.keypad ▸ hup)
      rw [m.run_add n 1, Outcome.andThen_of_success hrun, run_succ_eq_andThen,
        Outcome.andThen_of_success hok, hmachine]
      exact ⟨rfl, hheld.tick⟩

theorem after_eq_withKeys (m : Machine) {calls : List Call}
    (hcalls : ∀ call ∈ calls, call.movesKeys = true) :
    ∃ change, m.after calls = m.withKeys change := by
  induction calls generalizing m with
  | nil => exact ⟨id, rfl⟩
  | cons call rest ih =>
      obtain ⟨first, hfirst⟩ := exists_withKeys_of_movesKeys (hcalls call List.mem_cons_self)
      obtain ⟨change, hrest⟩ :=
        ih (m.withKeys first) fun later hlater => hcalls later (List.mem_cons_of_mem call hlater)
      refine ⟨change ∘ first, ?_⟩
      rw [after_cons, hfirst]
      exact hrest

/-- The step that takes a key: the least one that is down. -/
theorem step_takes_pressed {m : Machine} {x : Fin 16} (hnext : m.next? = .ok (.waitForKey x))
    (hdown : {key | m.isKeyPressed key = true}.Nonempty) :
    m.step.fault = none ∧ ∃ key, IsLeast {key | m.isKeyPressed key = true} key ∧
      m.step.machine = ({ m.setV x key with pc := m.pc + 2 } : Machine).tick := by
  obtain ⟨hok, ⟨key, hleast, hmachine⟩ | ⟨hnone, -⟩⟩ := step_takes_least (fun _ => Iff.rfl) hnext
  · exact ⟨hok, key, hleast, hmachine⟩
  · exact absurd hnone hdown.ne_empty

theorem Waits.endsWait {m held : Machine} {n : Nat} (hheld : m.Waits n held) {x : Fin 16}
    (hnext : m.next? = .ok (.waitForKey x)) {change : Keypad → Keypad} {ready : Machine}
    (hready : ready = held.withKeys change)
    (hdown : {key | ready.isKeyPressed key = true}.Nonempty) : m.EndsWait n x ready := by
  subst hready
  have hsame : (held.withKeys change).next? = .ok (.waitForKey x) := hheld.next?.trans hnext
  obtain ⟨hok, key, hleast, hmachine⟩ := step_takes_pressed hsame hdown
  have hpc : (held.withKeys change).pc = m.pc := hheld.pc
  rw [hpc] at hmachine
  have hfar : m.pc.toNat ≤ 0x10FE := Nat.le_trans (pc_le_of_next?_eq_ok hnext) (by decide)
  refine ⟨hok, ⟨key, hleast, ?_, hmachine⟩, ?_, ?_, ?_⟩
  · rw [hmachine]
    exact (held.v_setV x key x).trans (if_pos rfl)
  · rw [hmachine]
    exact toNat_add_two hfar
  · rw [hmachine]
    exact hheld.tick.delayTimer
  · rw [hmachine]
    exact hheld.tick.soundTimer

end Machine

namespace Hardware

/-- A wait for a key holds for any number of steps. It does not fail and only runs down the timers,
with the tone in the one step that stops the sound timer. Once a key is put down the next step moves
the least one that is down into `Vx` and goes on to the next instruction. -/
theorem key_wait_lasts (random : Random.Generator) (history : List Call) {x : Fin 16} {n : Nat}
    (hnext : ((Machine.powerOn random).after history).next? = .ok (.waitForKey x))
    (hup : ∀ key, ((Machine.powerOn random).after history).isKeyPressed key = false)
    (hn : 1 ≤ n) :
    let m := (Machine.powerOn random).after history
    let held := (m.run n).machine
    (m.run n).fault = none ∧ m.Waits n held ∧
      (∃ log h, replay random history = some h ∧ h = ofMachine log m ∧
        run n h = .done () (ofMachine (log ++ (m.run n).log) held)) ∧
      ∀ calls : List Call, (∀ call ∈ calls, call.movesKeys = true) →
        let ready := held.after calls
        {key | ready.isKeyPressed key = true}.Nonempty →
          m.EndsWait n x ready ∧
            ∃ log h, replay random (history ++ .run n :: calls) = some h ∧
              h = ofMachine log ready ∧
                step h = .done () (ofMachine (log ++ ready.step.log) ready.step.machine) := by
  intro m held
  have hm : m.Reachable := ⟨random, history, rfl⟩
  have hnone : m.keypad.lowest? = none := m.keypad.lowest?_eq_none_iff_isPressed.2 hup
  obtain ⟨hrun, hheld⟩ := Machine.run_waits hnext hnone hn
  refine ⟨hrun, hheld, ?_, ?_⟩
  · obtain ⟨log, hreplay⟩ := replay_eq random history
    refine ⟨log, _, hreplay, rfl, ?_⟩
    rw [run_ofMachine log m hm.bounded.depth_le n, Result.ofOutcome, hrun]
  · intro calls hcalls ready hdown
    obtain ⟨change, hready⟩ := held.after_eq_withKeys hcalls
    have hend : m.EndsWait n x ready := hheld.endsWait hnext hready hdown
    have hpast : (Machine.powerOn random).after (history ++ .run n :: calls) = ready :=
      (Machine.powerOn random).after_append history (.run n :: calls)
    refine ⟨hend, ?_⟩
    have hstep := replay_step_of_success random (history ++ .run n :: calls)
    rw [hpast] at hstep
    exact hstep hend.ok

/-- The sound timer stops in the second step of the wait. Then the keys 9 and 4 are put down. -/
theorem key_wait_lasts_tone :
    let history : List Call := [.load [0x60, 0x03, 0xF0, 0x18, 0xF1, 0x0A], .run 2]
    let m := (Machine.powerOn (.ofSeed 7)).after history
    let ready := (m.run 2).machine.after [.keyDown 9, .keyDown 4]
    m.next? = .ok (.waitForKey 1) ∧ (∀ key, m.isKeyPressed key = false) ∧
      (m.run 2).fault = none ∧ (m.run 2).machine.tone = true ∧
        IsLeast {key | ready.isKeyPressed key = true} 4 ∧ ready.step.machine.v 1 = 4 := by
  intro history m ready
  have hnext : m.next? = .ok (.waitForKey 1) := by decide +kernel
  have hup : ∀ key, m.isKeyPressed key = false :=
    m.keypad.lowest?_eq_none_iff_isPressed.1 (by decide +kernel)
  have hsound : m.soundTimer.toNat = 2 := by decide +kernel
  have hdown : ready.isKeyPressed 4 = true := by decide +kernel
  have hv : ready.step.machine.v 1 = 4 := by decide +kernel
  have hcalls : ∀ call ∈ [Call.keyDown 9, Call.keyDown 4], call.movesKeys = true := by decide
  clear_value history
  obtain ⟨hok, hheld, -, htaken⟩ :=
    key_wait_lasts (.ofSeed 7) history hnext hup (n := 2) (by decide)
  obtain ⟨key, hleast, hkey, -⟩ := (htaken _ hcalls ⟨4, hdown⟩).1.takes
  exact ⟨hnext, hup, hok, hheld.tone.2 hsound, (hkey.symm.trans hv) ▸ hleast, hv⟩

end Hardware

end Chip8
