import Chip8.Proofs.Reachable

/-!
# Timelines

A history taken apart into single deeds. A run is so many steps, and a step either executes an
instruction or fails. Each deed is kept with the machine as it was before. The timeline of a
history is a path of possible deeds to the machine after it, so what every deed keeps is kept by
every history.
-/

namespace Chip8

inductive Deed where
  /-- A step executed this instruction. -/
  | executed (i : Instruction)
  /-- A step stopped at this fault. -/
  | failed (fault : Fault)
  | loaded (program : List UInt8)
  /-- A program was too large to be loaded. -/
  | refused (program : List UInt8)
  | reset
  /-- The host brought the keys into this state. -/
  | keyed (keypad : Keypad)
  deriving DecidableEq

/-- A deed and the machine right before it. -/
structure Moment where
  before : Machine
  deed : Deed
  deriving DecidableEq

namespace Machine

/-! ## Single deeds -/

def stepDeed (m : Machine) : Deed :=
  match m.next? with
  | .error fault => .failed fault
  | .ok i =>
      match m.fault? i with
      | some fault => .failed fault
      | none => .executed i

def afterDeed (m : Machine) : Deed → Machine
  | .executed i => m.advance i
  | .failed _ => { m with tone := false }
  | .loaded program =>
      { m with memory := m.memory.store programStart.toNat program, pc := programStart }
  | .refused _ => m
  | .reset => m.reset
  | .keyed keypad => { m with keypad := keypad }

/-- What may happen to a machine next. -/
inductive Does (m : Machine) : Deed → Prop where
  | executed {i : Instruction} (hnext : m.next? = .ok i) (hfault : m.fault? i = none) :
      Does m (.executed i)
  | failed {fault : Fault} (hfault : m.step.fault = some fault) : Does m (.failed fault)
  | loaded {program : List UInt8} (hfits : program.length ≤ programLimit) :
      Does m (.loaded program)
  | refused {program : List UInt8} (hlarge : programLimit < program.length) :
      Does m (.refused program)
  | reset : Does m .reset
  | keyed (keypad : Keypad) : Does m (.keyed keypad)

theorem stepDeed_of_executed {m : Machine} {i : Instruction} (hnext : m.next? = .ok i)
    (hfault : m.fault? i = none) : m.stepDeed = .executed i := by
  simp [stepDeed, hnext, hfault]

theorem stepDeed_of_fault {m : Machine} {fault : Fault} (hfault : m.step.fault = some fault) :
    m.stepDeed = .failed fault := by
  rcases (m.step_fault_eq_some_iff fault).1 hfault with hnext | ⟨i, hnext, hi⟩
  · simp [stepDeed, hnext]
  · simp [stepDeed, hnext, hi]

/-- A step leads to the machine after its deed, and that deed was possible. -/
theorem step_eq_afterDeed (m : Machine) :
    m.step.machine = m.afterDeed m.stepDeed ∧ m.Does m.stepDeed := by
  rcases m.step_cases with ⟨fault, log, hstep⟩ | ⟨i, log, hnext, hi, hstep⟩
  · have hfault : m.step.fault = some fault := by rw [hstep]
    rw [stepDeed_of_fault hfault, hstep]
    exact ⟨rfl, .failed hfault⟩
  · rw [stepDeed_of_executed hnext hi, hstep]
    exact ⟨rfl, .executed hnext hi⟩

theorem machine_step_of_executed {m : Machine} {i : Instruction} (hnext : m.next? = .ok i)
    (hfault : m.fault? i = none) : m.step.machine = m.advance i := by
  rw [m.step_eq_afterDeed.1, stepDeed_of_executed hnext hfault, afterDeed]

theorem machine_step_of_fault {m : Machine} {fault : Fault} (hfault : m.step.fault = some fault) :
    m.step.machine = { m with tone := false } := by
  rw [m.step_eq_afterDeed.1, stepDeed_of_fault hfault, afterDeed]

theorem step_fault_of_next? {m : Machine} {i : Instruction} (hnext : m.next? = .ok i) :
    m.step.fault = m.fault? i := by
  obtain ⟨opcode, -, -, hstep⟩ := step_of_next?_eq_ok hnext
  rw [hstep]
  cases m.fault? i with
  | some fault => rfl
  | none => rfl

/-! ## The deeds of a history -/

/-- The steps of a run, which ends early at the first one that fails. -/
def steps (m : Machine) : Nat → List Moment
  | 0 => []
  | n + 1 =>
      ⟨m, m.stepDeed⟩ ::
        match m.step.fault with
        | some _ => []
        | none => m.step.machine.steps n

def moments (m : Machine) : Call → List Moment
  | .load program =>
      [⟨m, if programLimit < program.length then .refused program else .loaded program⟩]
  | .step => [⟨m, m.stepDeed⟩]
  | .run n => m.steps n
  | .reset => [⟨m, .reset⟩]
  | .setKeys keys => [⟨m, .keyed ⟨keys⟩⟩]
  | .keyDown key => [⟨m, .keyed (m.keypad.press key)⟩]
  | .keyUp key => [⟨m, .keyed (m.keypad.release key)⟩]

def timeline (m : Machine) : List Call → List Moment
  | [] => []
  | call :: rest => m.moments call ++ (m.perform call).machine.timeline rest

end Machine

def Moment.after (t : Moment) : Machine := t.before.afterDeed t.deed

/-! ## Paths -/

/-- Possible deeds that lead from one machine to another. -/
inductive Path : Machine → List Moment → Machine → Prop where
  | nil (m : Machine) : Path m [] m
  | cons {m last : Machine} {deed : Deed} {rest : List Moment} (hdeed : m.Does deed)
      (hrest : Path (m.afterDeed deed) rest last) : Path m (⟨m, deed⟩ :: rest) last

namespace Path

variable {first last : Machine} {ts us : List Moment}

theorem single {m : Machine} {deed : Deed} (hdeed : m.Does deed) :
    Path m [⟨m, deed⟩] (m.afterDeed deed) :=
  .cons hdeed (.nil _)

theorem append {middle : Machine} (hts : Path first ts middle) (hus : Path middle us last) :
    Path first (ts ++ us) last := by
  induction hts with
  | nil => exact hus
  | cons hdeed _ ih => exact .cons hdeed (ih hus)

theorem cut {t : Moment} (h : Path first (ts ++ t :: us) last) :
    Path first ts t.before ∧ t.before.Does t.deed ∧ Path t.after us last := by
  induction ts generalizing first with
  | nil =>
      cases h with
      | cons hdeed hrest => exact ⟨.nil _, hdeed, hrest⟩
  | cons s ts ih =>
      cases h with
      | cons hdeed hrest =>
          obtain ⟨hts, ht, hus⟩ := ih hrest
          exact ⟨.cons hdeed hts, ht, hus⟩

theorem snoc_induction {P : List Moment → Machine → Prop} (hpath : Path first ts last)
    (hnil : P [] first)
    (hsnoc : ∀ past m deed, m.Does deed → P past m →
      P (past ++ [⟨m, deed⟩]) (m.afterDeed deed)) : P ts last := by
  -- the path grows at its front, so the moments that came before it have to vary
  have hpast : ∀ past, P past first → P (past ++ ts) last := by
    clear hnil
    induction hpath with
    | nil m =>
        intro past h
        rwa [List.append_nil]
    | cons hdeed _ ih =>
        intro past h
        rw [List.append_cons]
        exact ih _ (hsnoc past _ _ hdeed h)
  exact hpast [] hnil

end Path

namespace Machine

theorem path_steps (m : Machine) (n : Nat) : Path m (m.steps n) (m.run n).machine := by
  induction n generalizing m with
  | zero => exact .nil m
  | succ n ih =>
      rw [steps, run_succ]
      refine .cons m.step_eq_afterDeed.2 ?_
      rw [← m.step_eq_afterDeed.1]
      cases m.step.fault with
      | some fault => exact .nil _
      | none => exact ih m.step.machine

theorem run_succ_of_fault_eq_none {m : Machine} {n : Nat} (hok : (m.run (n + 1)).fault = none) :
    m.step.fault = none ∧ (m.step.machine.run n).fault = none ∧
      m.run (n + 1) = (m.step.machine.run n).after m.step.log ∧
      m.steps (n + 1) = ⟨m, m.stepDeed⟩ :: m.step.machine.steps n := by
  rw [run_succ] at hok ⊢
  rw [steps]
  cases hstep : m.step.fault with
  | some fault =>
      rw [hstep] at hok
      cases hstep.symm.trans hok
  | none =>
      rw [hstep] at hok
      exact ⟨rfl, hok, rfl, rfl⟩

theorem path_moments (m : Machine) (call : Call) :
    Path m (m.moments call) (m.perform call).machine := by
  cases call with
  | load program =>
      simp only [moments, perform, load]
      split
      · next hlarge => exact .single (.refused hlarge)
      · next hfits => exact .single (.loaded (Nat.le_of_not_lt hfits))
  | step =>
      simp only [moments, perform, m.step_eq_afterDeed.1]
      exact .single m.step_eq_afterDeed.2
  | run n => exact m.path_steps n
  | reset => exact .single .reset
  | setKeys keys => exact .single (.keyed _)
  | keyDown key => exact .single (.keyed _)
  | keyUp key => exact .single (.keyed _)

theorem timeline_append (m : Machine) (past rest : List Call) :
    m.timeline (past ++ rest) = m.timeline past ++ (m.after past).timeline rest := by
  induction past generalizing m with
  | nil => rfl
  | cons call past ih =>
      rw [List.cons_append, timeline, timeline, ih, List.append_assoc, after_cons]

theorem path_timeline (m : Machine) (history : List Call) :
    Path m (m.timeline history) (m.after history) := by
  induction history generalizing m with
  | nil => exact .nil m
  | cons call rest ih => exact (m.path_moments call).append (ih _)

theorem Reachable.afterDeed {m : Machine} (hm : m.Reachable) {deed : Deed} (hdeed : m.Does deed) :
    (m.afterDeed deed).Reachable := by
  cases hdeed with
  | executed hnext hfault =>
      have hstep : m.step.machine.Reachable := hm.perform .step
      rwa [machine_step_of_executed hnext hfault] at hstep
  | failed hfault =>
      have hstep : m.step.machine.Reachable := hm.perform .step
      rwa [machine_step_of_fault hfault] at hstep
  | @loaded program hfits =>
      have hload : (m.load program).machine.Reachable := hm.perform (.load program)
      rwa [load, if_neg (Nat.not_lt.2 hfits)] at hload
  | refused => exact hm
  | reset => exact hm.perform .reset
  | keyed keypad => exact hm.perform (.setKeys keypad.keys)

theorem Reachable.of_path {first last : Machine} {ts : List Moment} (hfirst : first.Reachable)
    (hpath : Path first ts last) : last.Reachable := by
  induction hpath with
  | nil => exact hfirst
  | cons hdeed _ ih => exact ih (hfirst.afterDeed hdeed)

/-- What holds of new machines with an empty past and is kept by every possible deed of a
reachable machine holds of every history. -/
theorem timeline_invariant {P : List Moment → Machine → Prop} (random : Random.Generator)
    (hnew : P [] (powerOn random))
    (hdeed : ∀ past m deed, m.Reachable → m.Does deed → P past m →
      P (past ++ [⟨m, deed⟩]) (m.afterDeed deed)) (history : List Call) :
    P ((powerOn random).timeline history) ((powerOn random).after history) := by
  have hpath := (powerOn random).path_timeline history
  refine (hpath.snoc_induction (P := fun ts m => m.Reachable ∧ P ts m)
    ⟨Reachable.powerOn random, hnew⟩ ?_).2
  intro past m deed hdoes hpast
  exact ⟨hpast.1.afterDeed hdoes, hdeed past m deed hpast.1 hdoes hpast.2⟩

end Machine

end Chip8
