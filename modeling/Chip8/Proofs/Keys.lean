import Chip8.Proofs.Footprint
import Chip8.Proofs.Runs
import Mathlib.Data.List.Induction
import Mathlib.Data.Set.Basic
import Mathlib.Order.Bounds.Defs

/-!
# Keys

Only the host moves the keys, so a key is down if the latest call that decides about it has pressed
it. Three instructions look at the keys. A run that executes none of them goes the same way
whether a key event comes before it or after it.
-/

namespace Chip8

namespace Call

/-- After the call the key is up or down whatever it was before. -/
def decides (key : UInt8) : Call → Bool
  | .keyDown k | .keyUp k => k = key
  | .setKeys _ | .reset => true
  | .load _ | .step | .run _ => false

def presses (key : UInt8) : Call → Bool
  | .keyDown k => k = key
  | .setKeys keys => keys[key.toNat]? = some true
  | _ => false

def movesKeys : Call → Bool
  | .setKeys _ | .keyDown _ | .keyUp _ => true
  | _ => false

end Call

/-- The latest call that decides about the key has pressed it. On a new machine no key is down. -/
def pressedLast (history : List Call) (key : UInt8) : Bool :=
  (history.reverse.find? fun call => call.decides key).any fun call => call.presses key

theorem pressedLast_concat (history : List Call) (call : Call) (key : UInt8) :
    pressedLast (history ++ [call]) key =
      if call.decides key then call.presses key else pressedLast history key := by
  simp only [pressedLast, List.reverse_append, List.reverse_singleton, List.singleton_append,
    List.find?_cons]
  cases call.decides key with
  | true => rfl
  | false => rfl

namespace Keypad

theorem isLeast_of_lowest? {p : Keypad} {k : Fin 16} (h : p.lowest? = some k) :
    IsLeast {key : UInt8 | p.isPressed key = true} (.ofNat k) := by
  obtain ⟨hdown, hbelow⟩ := (p.lowest?_eq_some_iff k).1 h
  refine ⟨(p.isPressed_ofNat k).trans hdown, fun key hkey => ?_⟩
  have hlt : key.toNat < 16 := lt_of_isPressed hkey
  rw [UInt8.le_iff_toNat_le, toNat_ofNat_key]
  apply Nat.le_of_not_lt
  intro hless
  have hup : p.keys[key.toNat] = false := hbelow ⟨key.toNat, hlt⟩ hless
  have hpressed : p.keys[key.toNat] = true := by simpa [isPressed, hlt] using hkey
  exact Bool.false_ne_true (hup.symm.trans hpressed)

end Keypad

namespace Machine

/-! ## What the host has decided -/

theorem keypad_load (m : Machine) (program : List UInt8) :
    (m.load program).machine.keypad = m.keypad := by
  rw [load]
  split
  · rfl
  · rfl

theorem keypad_step (m : Machine) : m.step.machine.keypad = m.keypad := by
  rcases m.step_cases with ⟨fault, log, hstep⟩ | ⟨i, log, -, -, hstep⟩
  · rw [hstep]
  · rw [hstep]
    exact m.keypad_effect i

theorem keypad_run (m : Machine) (n : Nat) : (m.run n).machine.keypad = m.keypad :=
  run_invariant (P := fun next => next.keypad = m.keypad)
    (fun next hnext => next.keypad_step.trans hnext) rfl n

theorem isKeyPressed_perform (m : Machine) (call : Call) {key : UInt8} (hkey : key.toNat < 16) :
    (m.perform call).machine.isKeyPressed key =
      if call.decides key then call.presses key else m.isKeyPressed key := by
  cases call with
  | load program => exact congrArg (·.isPressed key) (m.keypad_load program)
  | step => exact congrArg (·.isPressed key) m.keypad_step
  | run n => exact congrArg (·.isPressed key) (m.keypad_run n)
  | reset => exact Keypad.isPressed_released key
  | setKeys keys =>
      have hkeys : (⟨keys⟩ : Keypad).isPressed key = (keys[key.toNat]? = some true : Bool) := by
        simp [Keypad.isPressed, hkey]
      exact hkeys
  | keyDown k =>
      refine (m.keypad.isPressed_press k key).trans ?_
      by_cases h : key = k
      · subst h
        simp [Call.decides, Call.presses, hkey]
      · simp [Call.decides, h, Ne.symm h, isKeyPressed]
  | keyUp k =>
      refine (m.keypad.isPressed_release k key).trans ?_
      by_cases h : key = k
      · subst h
        simp [Call.decides, Call.presses, hkey]
      · simp [Call.decides, h, Ne.symm h, isKeyPressed]

theorem isKeyPressed_after (random : Random.Generator) (history : List Call) {key : UInt8}
    (hkey : key.toNat < 16) :
    ((powerOn random).after history).isKeyPressed key = pressedLast history key := by
  induction history using List.reverseRecOn with
  | nil => exact Keypad.isPressed_released key
  | append_singleton history call ih =>
      rw [after_append, pressedLast_concat, ← ih]
      exact isKeyPressed_perform _ call hkey

theorem isKeyPressed_after_iff (random : Random.Generator) (history : List Call) (key : UInt8) :
    ((powerOn random).after history).isKeyPressed key = true ↔
      key.toNat ≤ 15 ∧ pressedLast history key = true := by
  constructor
  · intro hpressed
    have hkey := Keypad.lt_of_isPressed hpressed
    exact ⟨Nat.le_of_lt_succ hkey, isKeyPressed_after random history hkey ▸ hpressed⟩
  · rintro ⟨hkey, hlast⟩
    exact (isKeyPressed_after random history (Nat.lt_succ_of_le hkey)).trans hlast

theorem keyDown_of_lt (m : Machine) {key : UInt8} (hkey : 15 < key.toNat) : m.keyDown key = m := by
  rw [keyDown, Keypad.press, Vector.setIfInBounds_eq_of_size_le hkey]

theorem keyUp_of_lt (m : Machine) {key : UInt8} (hkey : 15 < key.toNat) : m.keyUp key = m := by
  rw [keyUp, Keypad.release, Vector.setIfInBounds_eq_of_size_le hkey]

/-! ## Waiting for a key -/

theorem step_waitForKey {m : Machine} {x : Fin 16} (hnext : m.next? = .ok (.waitForKey x)) :
    m.step.fault = none ∧
      m.step.machine =
        match m.keypad.lowest? with
        | some key => ({ m.setV x (.ofNat key) with pc := m.pc + 2 } : Machine).tick
        | none => m.tick := by
  refine ⟨step_fault_of_next? hnext, ?_⟩
  rw [machine_step_of_executed hnext rfl, advance, effect, nextPc]
  cases m.keypad.lowest? with
  | some key => rfl
  | none => rfl

theorem step_takes_least {m : Machine} {down : Set UInt8}
    (hdown : ∀ key, m.isKeyPressed key = true ↔ key ∈ down) {x : Fin 16}
    (hnext : m.next? = .ok (.waitForKey x)) :
    m.step.fault = none ∧
      ((∃ key, IsLeast down key ∧
        m.step.machine = ({ m.setV x key with pc := m.pc + 2 } : Machine).tick) ∨
        down = ∅ ∧ m.step.machine = m.tick) := by
  have hset : {key : UInt8 | m.keypad.isPressed key = true} = down := Set.ext hdown
  obtain ⟨hfault, hmachine⟩ := step_waitForKey hnext
  refine ⟨hfault, ?_⟩
  cases hkey : m.keypad.lowest? with
  | some k =>
      rw [hkey] at hmachine
      exact Or.inl ⟨_, hset ▸ Keypad.isLeast_of_lowest? hkey, hmachine⟩
  | none =>
      rw [hkey] at hmachine
      refine Or.inr ⟨?_, hmachine⟩
      apply Set.eq_empty_of_forall_notMem
      intro key hpressed
      have hup := m.keypad.lowest?_eq_none_iff_isPressed.1 hkey key
      exact Bool.false_ne_true (hup.symm.trans ((hdown key).2 hpressed))

end Machine

namespace Hardware

/-- A key is down if it is one of the sixteen and the latest call that decides about it has pressed
it. Loads and steps leave the keys alone, and there is no other key to move. A machine that waits
for a key takes the least one that is down, and while there is none only its timers move. -/
theorem keys_follow_history (random : Random.Generator) (history : List Call) :
    let m := (Machine.powerOn random).after history
    let down := {key : UInt8 | key.toNat ≤ 15 ∧ pressedLast history key = true}
    (∀ key, m.isKeyPressed key = true ↔ key ∈ down) ∧
      ((∀ program, (m.load program).machine.keypad = m.keypad) ∧
        m.step.machine.keypad = m.keypad ∧ (∀ n, (m.run n).machine.keypad = m.keypad) ∧
        ∀ key, 15 < key.toNat → m.keyDown key = m ∧ m.keyUp key = m) ∧
      (∀ x, m.next? = .ok (.waitForKey x) → m.step.fault = none ∧
        ((∃ key, IsLeast down key ∧
          m.step.machine = ({ m.setV x key with pc := m.pc + 2 } : Machine).tick) ∨
          down = ∅ ∧ m.step.machine = m.tick)) ∧
      ∃ log h, replay random history = some h ∧
        (∀ key, isKeyPressed key h = .done (m.isKeyPressed key) h) ∧
        step h = Result.ofOutcome log m.step := by
  intro m down
  have hdown : ∀ key, m.isKeyPressed key = true ↔ key ∈ down :=
    Machine.isKeyPressed_after_iff random history
  refine ⟨hdown, ⟨m.keypad_load, m.keypad_step, m.keypad_run, ?_⟩, ?_, ?_⟩
  · exact fun key hkey => ⟨m.keyDown_of_lt hkey, m.keyUp_of_lt hkey⟩
  · exact fun x hnext => Machine.step_takes_least hdown hnext
  · have hm : m.Reachable := ⟨random, history, rfl⟩
    obtain ⟨log, hreplay⟩ := replay_eq random history
    exact ⟨log, _, hreplay, isKeyPressed_ofMachine log m, step_ofMachine log m hm.bounded.depth_le⟩

/-- Keys 4 and 9 are put down, 12 is pressed, 4 is released and 200 is no key. -/
theorem keys_follow_history_released :
    let keys : Vector Bool 16 := .ofFn fun k => k.val = 4 ∨ k.val = 9
    let history : List Call := [.keyDown 2, .setKeys keys, .load [0xF3, 0x0A], .keyDown 12,
      .keyUp 4, .keyDown 200]
    let m := (Machine.powerOn (.ofSeed 7)).after history
    m.next? = .ok (.waitForKey 3) ∧
      IsLeast {key : UInt8 | key.toNat ≤ 15 ∧ pressedLast history key = true} 9 ∧
        m.step.machine.v 3 = 9 := by
  intro keys history m
  have hnext : m.next? = .ok (.waitForKey 3) := by decide +kernel
  have hnine : (9 : UInt8).toNat ≤ 15 ∧ pressedLast history 9 = true := by decide +kernel
  have hv : m.step.machine.v 3 = 9 := by decide +kernel
  obtain ⟨-, ⟨key, hleast, hmachine⟩ | ⟨hnone, -⟩⟩ :=
    (keys_follow_history (.ofSeed 7) history).2.2.1 3 hnext
  · have hkey : m.step.machine.v 3 = key := by
      rw [hmachine]
      exact (m.v_setV 3 key 3).trans (if_pos rfl)
    rw [hv] at hkey
    exact ⟨hnext, hkey ▸ hleast, hv⟩
  · exact absurd hnine (Set.eq_empty_iff_forall_notMem.1 hnone 9)

end Hardware

/-! ## Runs that do not look at the keys -/

def Instruction.readsKeys : Instruction → Bool
  | .skipIfKeyPressed _ | .skipIfKeyNotPressed _ | .waitForKey _ => true
  | _ => false

def Moment.readsKeys (t : Moment) : Bool :=
  match t.deed with
  | .executed i => i.readsKeys
  | _ => false

namespace Machine

def withKeys (change : Keypad → Keypad) (m : Machine) : Machine :=
  { m with keypad := change m.keypad }

variable (change : Keypad → Keypad)

theorem hidden_withKeys : Hidden (withKeys change) where
  pc _ := rfl
  memory _ := rfl
  registers _ := rfl
  stack _ := rfl
  index _ := rfl
  tone _ := rfl
  mute _ := rfl

theorem awaits?_withKeys (m : Machine) {i : Instruction} (hi : i.readsKeys = false) :
    (m.withKeys change).awaits? i = m.awaits? i := by
  cases i with
  | waitForKey x => cases hi
  | _ => rfl

theorem advance_withKeys (m : Machine) {i : Instruction} (hi : i.readsKeys = false) :
    (m.withKeys change).advance i = (m.advance i).withKeys change := by
  cases i with
  | skipIfKeyPressed x | skipIfKeyNotPressed x | waitForKey x => cases hi
  | _ => rfl

theorem step_withKeys {m : Machine} (hstep : Moment.readsKeys ⟨m, m.stepDeed⟩ = false) :
    (m.withKeys change).step = m.step.map (withKeys change) := by
  refine (hidden_withKeys change).step fun i hdeed => ?_
  have hi : i.readsKeys = false := by rwa [hdeed] at hstep
  exact ⟨m.awaits?_withKeys change hi, m.advance_withKeys change hi⟩

theorem exists_withKeys_of_movesKeys {e : Call} (he : e.movesKeys = true) :
    ∃ change, ∀ m : Machine, m.perform e = .quiet (m.withKeys change) := by
  cases e with
  | setKeys keys => exact ⟨fun _ => ⟨keys⟩, fun _ => rfl⟩
  | keyDown key => exact ⟨fun p => p.press key, fun _ => rfl⟩
  | keyUp key => exact ⟨fun p => p.release key, fun _ => rfl⟩
  | load _ | step | run _ | reset => cases he

/-- A key event can change places with a run that executes no instruction that looks at the keys.
Both orders give the same result of the run, the same reports and the same machine in the end,
also where the run fails, and the run takes the same steps. -/
theorem key_event_commutes_with_run (m : Machine) (n : Nat) {e : Call} (he : e.movesKeys = true)
    (hsteps : ∀ t ∈ m.steps n, t.readsKeys = false) :
    ((m.perform e).machine.run n).fault = (m.run n).fault ∧
      m.report [e, .run n] = m.report [.run n, e] ∧ m.after [e, .run n] = m.after [.run n, e] ∧
      ((m.perform e).machine.steps n).map Moment.deed = (m.steps n).map Moment.deed := by
  obtain ⟨change, hchange⟩ := exists_withKeys_of_movesKeys he
  have hstep : ∀ next : Machine, Moment.readsKeys ⟨next, next.stepDeed⟩ = false →
      (next.withKeys change).step = next.step.map (withKeys change) :=
    fun _ => step_withKeys change
  have hrun : (m.withKeys change).run n = (m.run n).map (withKeys change) := run_map hstep hsteps
  have hmachine : (m.perform e).machine = m.withKeys change := by rw [hchange, Outcome.quiet]
  refine ⟨?_, ?_, ?_, ?_⟩
  · rw [hmachine, hrun, Outcome.map]
  · have hlog : ((m.withKeys change).run n).log = (m.run n).log := by rw [hrun, Outcome.map]
    simp only [report, hchange, Outcome.quiet, List.append_nil, List.nil_append]
    exact hlog
  · simp only [after_cons, after_nil, hchange, Outcome.quiet]
    exact congrArg Outcome.machine hrun
  · rw [hmachine, (hidden_withKeys change).steps hstep hsteps, List.map_map]
    rfl

/-- A key is pressed before or after a run that ends with a return without a call. -/
theorem key_event_commutes_with_run_underflow :
    let m := (withSeed 7).after [.load [0x60, 0x05, 0xF0, 0x18, 0x00, 0xEE]]
    (∀ t ∈ m.steps 9, t.readsKeys = false) ∧
      ((m.perform (.keyDown 3)).machine.run 9).fault = some .stackUnderflow ∧
        m.report [.keyDown 3, .run 9] = m.report [.run 9, .keyDown 3] ∧
          m.after [.keyDown 3, .run 9] = m.after [.run 9, .keyDown 3] := by
  intro m
  have hsteps : ∀ t ∈ m.steps 9, t.readsKeys = false := by decide +kernel
  have hfault : (m.run 9).fault = some .stackUnderflow := by decide +kernel
  obtain ⟨hresult, hreport, hafter, -⟩ :=
    key_event_commutes_with_run m 9 (e := .keyDown 3) rfl hsteps
  exact ⟨hsteps, hresult.trans hfault, hreport, hafter⟩

end Machine

end Chip8
