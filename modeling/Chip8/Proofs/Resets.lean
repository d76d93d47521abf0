import Chip8.Proofs.RandomStream
import Chip8.Proofs.Runs

/-!
# Resets

A reset leaves nothing of the past but the place in the random stream, and only random
instructions look at the stream. So machines with different pasts cannot be told apart after a
reset, until one of them executes a random instruction.
-/

namespace Chip8

namespace Machine

def withRandom (m : Machine) (random : Random.Generator) : Machine := { m with random := random }

/-- The machines differ in their random streams at most. -/
def AlikeButRandom (m n : Machine) : Prop := m.withRandom n.random = n

theorem alikeButRandom_withRandom (m : Machine) (random : Random.Generator) :
    m.AlikeButRandom (m.withRandom random) := rfl

/-! ## What does not look at the random stream -/

theorem AlikeButRandom.queries {m n : Machine} (h : m.AlikeButRandom n) :
    (∀ x y, m.pixel x y = n.pixel x y) ∧ (∀ x, m.register x = n.register x) ∧
      (∀ key, m.isKeyPressed key = n.isKeyPressed key) ∧ m.soundActive = n.soundActive := by
  rw [← h]
  exact ⟨fun _ _ => rfl, fun _ => rfl, fun _ => rfl, rfl⟩

variable (m : Machine) (random : Random.Generator)

theorem hidden_withRandom : Hidden fun m => m.withRandom random where
  pc _ := rfl
  memory _ := rfl
  registers _ := rfl
  stack _ := rfl
  index _ := rfl
  tone _ := rfl
  mute _ := rfl

theorem awaits?_withRandom (i : Instruction) :
    (m.withRandom random).awaits? i = m.awaits? i := by
  cases i with
  | _ => rfl

theorem nextPc_withRandom (i : Instruction) : (m.withRandom random).nextPc i = m.nextPc i := by
  cases i with
  | _ => rfl

theorem effect_withRandom {i : Instruction} (hi : i.usesRandom = false) :
    (m.withRandom random).effect i = (m.effect i).withRandom random := by
  cases i with
  | random x kk => cases hi
  | waitForKey x =>
      -- this effect is itself a case distinction, on the keys
      simp only [effect]
      cases hkey : m.keypad.lowest? with
      | some key => simp [withRandom, hkey, setV]
      | none => simp [withRandom, hkey]
  | _ => rfl

theorem advance_withRandom {i : Instruction} (hi : i.usesRandom = false) :
    (m.withRandom random).advance i = (m.advance i).withRandom random := by
  rw [advance, effect_withRandom m random hi, nextPc_withRandom]
  rfl

/-! ## Calls that do not use the random stream -/

theorem step_withRandom {m : Machine} (hstep : Moment.draws ⟨m, m.stepDeed⟩ = false) :
    (m.withRandom random).step = m.step.map fun n => n.withRandom random := by
  refine (hidden_withRandom random).step fun i hdeed => ⟨m.awaits?_withRandom random i, ?_⟩
  have hi : i.usesRandom = false := by rwa [hdeed] at hstep
  exact m.advance_withRandom random hi

theorem perform_withRandom {m : Machine} {call : Call}
    (hcall : ∀ t ∈ m.moments call, t.draws = false) :
    (m.withRandom random).perform call = (m.perform call).map fun n => n.withRandom random := by
  cases call with
  | load program =>
      simp only [perform, load]
      split
      · rfl
      · rfl
  | step => exact step_withRandom random (hcall _ List.mem_cons_self)
  | run n =>
      have hsteps : ∀ t ∈ m.steps n, t.draws = false := hcall
      exact run_map (fun m => step_withRandom random) hsteps
  | reset | setKeys keys | keyDown key | keyUp key => rfl

theorem after_withRandom {m : Machine} {calls : List Call}
    (hcalls : ∀ t ∈ m.timeline calls, t.draws = false) :
    (m.withRandom random).after calls = (m.after calls).withRandom random := by
  induction calls generalizing m with
  | nil => rfl
  | cons call rest ih =>
      obtain ⟨hcall, hrest⟩ := List.forall_mem_append.1 hcalls
      rw [after_cons, after_cons, perform_withRandom random hcall]
      exact ih hrest

theorem after_reset (m : Machine) (past : List Call) :
    m.after (past ++ [.reset]) = powerOn (m.after past).random := by
  rw [after_append]
  rfl

theorem alikeButRandom_powerOn (m : Machine) (past : List Call) (random : Random.Generator) :
    (m.after (past ++ [.reset])).AlikeButRandom (powerOn random) := by
  rw [after_reset]
  rfl

theorem AlikeButRandom.perform {m n : Machine} (h : m.AlikeButRandom n) {call : Call}
    (hcall : ∀ t ∈ m.moments call, t.draws = false) :
    (m.perform call).fault = (n.perform call).fault ∧
      (m.perform call).log = (n.perform call).log ∧
        (m.perform call).machine.AlikeButRandom (n.perform call).machine := by
  rw [← h, perform_withRandom n.random hcall]
  exact ⟨rfl, rfl, alikeButRandom_withRandom _ _⟩

theorem AlikeButRandom.after {m n : Machine} (h : m.AlikeButRandom n) {calls : List Call}
    (hcalls : ∀ t ∈ m.timeline calls, t.draws = false) :
    (m.after calls).AlikeButRandom (n.after calls) := by
  rw [← h, after_withRandom n.random hcalls]
  exact alikeButRandom_withRandom _ _

end Machine

namespace Hardware

/-- A reset writes every cell of the hardware as it is when new, and leaves the random stream
where it is. Two machines with any pasts are alike after it but for their streams, and they answer
all calls alike, and stay so, as long as no random instruction is executed. -/
theorem reset_erases_past (random₁ random₂ : Random.Generator) (past₁ past₂ : List Call) :
    let m := (Machine.powerOn random₁).after (past₁ ++ [.reset])
    let n := (Machine.powerOn random₂).after (past₂ ++ [.reset])
    (∀ (h : Hardware) (random : Random.Generator), ∃ new, construct random = .done () new ∧
      clear h = .done () { new with random := h.random, log := h.log }) ∧
      (m.AlikeButRandom n ∧ ∀ random, m.AlikeButRandom (.powerOn random)) ∧
        ∀ calls call, (∀ t ∈ m.timeline (calls ++ [call]), t.draws = false) →
          let o := (m.after calls).perform call
          let p := (n.after calls).perform call
          o.fault = p.fault ∧ o.log = p.log ∧ o.machine.AlikeButRandom p.machine ∧
            (∀ x y, o.machine.pixel x y = p.machine.pixel x y) ∧
            (∀ x, o.machine.register x = p.machine.register x) ∧
            (∀ key, o.machine.isKeyPressed key = p.machine.isKeyPressed key) ∧
            o.machine.soundActive = p.machine.soundActive := by
  intro m n
  have hnew : ∀ random, m.AlikeButRandom (.powerOn random) :=
    Machine.alikeButRandom_powerOn (.powerOn random₁) past₁
  have halike : m.AlikeButRandom n := by
    have hn : n = .powerOn _ := Machine.after_reset (.powerOn random₂) past₂
    rw [hn]
    exact hnew _
  refine ⟨fun h random => ⟨_, construct_eq random, clear_apply h⟩, ⟨halike, hnew⟩, ?_⟩
  intro calls call hdraws o p
  rw [m.timeline_append] at hdraws
  obtain ⟨hcalls, hcall⟩ := List.forall_mem_append.1 hdraws
  have hmoments : ∀ t ∈ (m.after calls).moments call, t.draws = false :=
    fun t ht => hcall t (List.mem_append_left _ ht)
  obtain ⟨hfault, hlog, hmachine⟩ := (halike.after hcalls).perform hmoments
  exact ⟨hfault, hlog, hmachine, hmachine.queries⟩

/-- One machine has drawn random numbers, made calls, stored digits, started its timers and has a
key down, and the other one is new. Reset, both play the same tone and fail at the same place. -/
theorem reset_erases_past_seeds :
    let past : List Call := [.load [0xC0, 0xFF, 0xA3, 0x00, 0xF0, 0x33, 0xF0, 0x15, 0xF0, 0x18,
      0x22, 0x0C, 0xF1, 0x0A], .run 7, .keyDown 3]
    let m := (Machine.withSeed 7).after (past ++ [.reset])
    let n := (Machine.withSeed 8).after [.reset]
    let calls : List Call := [.load [0x61, 0x01, 0xF1, 0x18, 0x00, 0xEE], .run 2]
    m.random ≠ n.random ∧ m.AlikeButRandom n ∧
      ((m.after calls).perform .step).fault = some .stackUnderflow ∧
      ((n.after calls).perform .step).fault = some .stackUnderflow ∧
      ((m.after calls).perform .step).machine.AlikeButRandom
        ((n.after calls).perform .step).machine := by
  intro past m n calls
  have hrandom : m.random ≠ n.random := by decide +kernel
  have hdraws : ∀ t ∈ m.timeline (calls ++ [.step]), t.draws = false := by decide +kernel
  have hunderflow : ((m.after calls).perform .step).fault = some .stackUnderflow := by
    decide +kernel
  obtain ⟨-, ⟨halike, -⟩, hfuture⟩ :=
    reset_erases_past (.ofSeed 7) (.ofSeed 8) past []
  obtain ⟨hfault, -, hmachine, -⟩ := hfuture calls .step hdraws
  exact ⟨hrandom, halike, hunderflow, hfault.symm.trans hunderflow, hmachine⟩

end Hardware

end Chip8
