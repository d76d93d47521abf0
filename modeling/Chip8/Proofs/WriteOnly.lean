import Chip8.Proofs.Runs
import Chip8.Proofs.Safety

/-!
# State that is only written

Nothing reads the sound timer, the tone and the stack slots that no pending call is kept in. Two
machines that differ there at most answer every call alike, and after it they still differ there at
most. What they report differs in the ticks of the tone.
-/

namespace Chip8

namespace CallStack

/-- The stacks hold the same pending calls, whatever is left in the other slots. -/
structure SamePending (s t : CallStack) : Prop where
  depth : s.depth = t.depth
  slots : ∀ k < s.depth, s.slots[k]? = t.slots[k]?

theorem SamePending.refl (s : CallStack) : s.SamePending s := ⟨rfl, fun _ _ => rfl⟩

variable {s t : CallStack}

theorem SamePending.push (h : s.SamePending t) (a : UInt16) : (s.push a).SamePending (t.push a) := by
  refine ⟨congrArg (· + 1) h.depth, fun k hk => ?_⟩
  simp only [CallStack.push, Vector.getElem?_setIfInBounds, ← h.depth]
  rcases Nat.lt_succ_iff_lt_or_eq.1 hk with hbelow | rfl
  · rw [if_neg (Nat.ne_of_gt hbelow), if_neg (Nat.ne_of_gt hbelow), h.slots k hbelow]
  · rw [if_pos rfl, if_pos rfl]

theorem SamePending.pop (h : s.SamePending t) : s.pop.SamePending t.pop :=
  ⟨congrArg (· - 1) h.depth, fun k hk => h.slots k (Nat.lt_of_lt_of_le hk (Nat.sub_le _ _))⟩

theorem SamePending.top (h : s.SamePending t) (hdepth : s.depth ≠ 0) : s.top = t.top := by
  have hslot := h.slots (s.depth - 1) (Nat.sub_one_lt hdepth)
  rw [CallStack.top, CallStack.top, ← h.depth, hslot]

end CallStack

namespace Machine

/-- The machine with another sound timer, another tone and another stack. -/
def withUnread (m : Machine) (soundTimer : UInt8) (tone : Bool) (stack : CallStack) : Machine :=
  { m with soundTimer := soundTimer, tone := tone, stack := stack }

/-- The machines differ in the sound timer, the tone and the unused stack slots at most. -/
structure AlikeWhereRead (m n : Machine) : Prop where
  pending : m.stack.SamePending n.stack
  others : m.withUnread n.soundTimer n.tone n.stack = n

theorem AlikeWhereRead.refl (m : Machine) : m.AlikeWhereRead m := ⟨.refl _, rfl⟩

end Machine

def withoutTones (log : List Event) : List Event := log.filter (· ≠ .toneTick)

theorem withoutTones_append (log more : List Event) :
    withoutTones (log ++ more) = withoutTones log ++ withoutTones more :=
  List.filter_append ..

theorem withoutTones_append_ticking (log : List Event) (tone : Bool) :
    withoutTones (log ++ if tone then [.toneTick] else []) = withoutTones log := by
  cases tone with
  | true => exact (withoutTones_append log [.toneTick]).trans (List.append_nil _)
  | false => exact congrArg withoutTones (List.append_nil log)

structure Outcome.AlikeWhereRead (o p : Outcome) : Prop where
  fault : o.fault = p.fault
  log : withoutTones o.log = withoutTones p.log
  machine : o.machine.AlikeWhereRead p.machine

theorem Outcome.AlikeWhereRead.andThen {o p : Outcome} (h : o.AlikeWhereRead p)
    {next : Machine → Outcome}
    (hnext : ∀ {m n : Machine}, m.AlikeWhereRead n → (next m).AlikeWhereRead (next n)) :
    (o.andThen next).AlikeWhereRead (p.andThen next) := by
  cases hfault : o.fault with
  | some fault =>
      rw [andThen_of_fault hfault, andThen_of_fault (h.fault ▸ hfault)]
      exact h
  | none =>
      rw [andThen_of_success hfault, andThen_of_success (h.fault ▸ hfault)]
      obtain ⟨hresult, hlog, hmachine⟩ := hnext h.machine
      refine ⟨hresult, ?_, hmachine⟩
      simp only [after, withoutTones_append, h.log, hlog]

namespace Machine

namespace AlikeWhereRead

variable {m n : Machine}

/-! ## One instruction -/

theorem effect (h : m.AlikeWhereRead n) (i : Instruction) :
    (m.effect i).AlikeWhereRead (n.effect i) := by
  obtain ⟨hpending, hothers⟩ := h
  constructor
  · rw [stack_effect, stack_effect, ← hothers]
    cases i with
    | ret => exact hpending.pop
    | call addr => exact hpending.push m.pc
    | _ => exact hpending
  · rw [← hothers]
    cases i with
    | waitForKey x =>
        simp only [Machine.effect]
        cases hkey : m.keypad.lowest? with
        | some key => simp [withUnread, hkey, setV]
        | none => simp [withUnread, hkey]
    | _ => rfl

/-- A return looks at the stack, at a slot that the latest pending call is kept in. -/
theorem nextPc (h : m.AlikeWhereRead n) {i : Instruction} (hi : m.fault? i = none) :
    m.nextPc i = n.nextPc i := by
  cases i with
  | ret =>
      have hdepth : m.stack.depth ≠ 0 := by
        intro hzero
        simp [fault?, hzero] at hi
      exact congrArg (· + 2) (h.pending.top hdepth)
  | _ =>
      rw [← h.others]
      rfl

theorem tickAt (h : m.AlikeWhereRead n) (pc : UInt16) :
    ({ m with pc := pc } : Machine).tick.AlikeWhereRead ({ n with pc := pc } : Machine).tick := by
  obtain ⟨hpending, hothers⟩ := h
  rw [← hothers]
  exact ⟨hpending, rfl⟩

theorem advance (h : m.AlikeWhereRead n) {i : Instruction} (hi : m.fault? i = none) :
    (m.advance i).AlikeWhereRead (n.advance i) := by
  rw [Machine.advance, Machine.advance, ← h.nextPc hi]
  exact (h.effect i).tickAt (m.nextPc i)

/-! ## Steps and runs -/

theorem fetch (h : m.AlikeWhereRead n) : n.fetch = m.fetch := by
  rw [← h.others]
  rfl

theorem fault? (h : m.AlikeWhereRead n) (i : Instruction) : n.fault? i = m.fault? i := by
  apply fault?_congr
  · exact h.pending.depth.symm
  · rw [← h.others]
    rfl

theorem stop (h : m.AlikeWhereRead n) (log : List Event) (fault : Fault) :
    (m.stop log fault).AlikeWhereRead (n.stop log fault) := by
  obtain ⟨hpending, hothers⟩ := h
  rw [← hothers]
  exact ⟨rfl, rfl, hpending, rfl⟩

theorem step (h : m.AlikeWhereRead n) : m.step.AlikeWhereRead n.step := by
  have hothers := h.others
  have hpc : n.pc = m.pc := by rw [← hothers, withUnread]
  have hregisters : n.registers = m.registers := by rw [← hothers, withUnread]
  have hawaits : ∀ i, n.awaits? i = m.awaits? i := by
    intro i
    rw [← hothers]
    cases i with
    | _ => rfl
  rcases step_alike h.fetch h.fault? hpc hregisters with
    ⟨log, fault, hm, hn⟩ | ⟨trace, i, -, hfault, hm, hn⟩
  · rw [hm, hn]
    exact h.stop log fault
  · rw [hm, hn]
    refine ⟨rfl, ?_, h.advance hfault⟩
    simp only [pass, withoutTones_append_ticking, hawaits]

theorem run (h : m.AlikeWhereRead n) (k : Nat) : (m.run k).AlikeWhereRead (n.run k) := by
  induction k generalizing m n with
  | zero => exact ⟨rfl, rfl, h⟩
  | succ k ih =>
      rw [run_succ_eq_andThen, run_succ_eq_andThen]
      exact h.step.andThen fun hnext => ih hnext

/-! ## Calls -/

theorem perform (h : m.AlikeWhereRead n) (call : Call) :
    (m.perform call).AlikeWhereRead (n.perform call) := by
  cases call with
  | step => exact h.step
  | run k => exact h.run k
  | load program =>
      obtain ⟨hpending, hothers⟩ := h
      rw [← hothers]
      simp only [Machine.perform, load]
      split
      · exact ⟨rfl, rfl, hpending, rfl⟩
      · exact ⟨rfl, rfl, hpending, rfl⟩
  | reset =>
      have hreset : n.reset = m.reset := by
        rw [← h.others]
        rfl
      rw [Machine.perform, Machine.perform, hreset]
      exact ⟨rfl, rfl, .refl _⟩
  | setKeys keys | keyDown key | keyUp key =>
      obtain ⟨hpending, hothers⟩ := h
      rw [← hothers]
      exact ⟨rfl, rfl, hpending, rfl⟩

theorem after (h : m.AlikeWhereRead n) (calls : List Call) :
    (m.after calls).AlikeWhereRead (n.after calls) := by
  induction calls generalizing m n with
  | nil => exact h
  | cons call rest ih => exact ih (h.perform call).machine

end AlikeWhereRead

theorem depth_after_le {m : Machine} (hdepth : m.stack.depth ≤ 16) (calls : List Call) :
    (m.after calls).stack.depth ≤ 16 := by
  have hload : ∀ (next : Machine) program, next.stack.depth ≤ 16 →
      (next.load program).machine.stack.depth ≤ 16 := by
    intro next program hnext
    rw [load]
    split
    · exact hnext
    · exact hnext
  apply after_invariant (P := fun next => next.stack.depth ≤ 16)
  · exact fun _ => Nat.zero_le 16
  · exact hload
  · exact fun _ => depth_step_le
  · exact fun _ _ hnext => hnext
  · exact hdepth

end Machine

namespace Hardware

/-- Machines that differ in the sound timer, the tone and the unused stack slots at most answer
every call alike in the course of every history: with the same fault or none, with the same
reports but for the ticks of the tone, and with machines that differ in these parts at most. The
answers are those of the hardware. -/
theorem sound_and_unused_slots_write_only {m n : Machine} (hdepth : m.stack.depth ≤ 16)
    (h : m.AlikeWhereRead n) (calls : List Call) (call : Call) :
    let o := (m.after calls).perform call
    let p := (n.after calls).perform call
    o.fault = p.fault ∧ withoutTones o.log = withoutTones p.log ∧
      o.machine.AlikeWhereRead p.machine ∧
        ∀ log, answer call (ofMachine log (m.after calls)) = Result.ofOutcome log o ∧
          answer call (ofMachine log (n.after calls)) = Result.ofOutcome log p := by
  intro o p
  have hm := Machine.depth_after_le hdepth calls
  have hn := Machine.depth_after_le (h.pending.depth ▸ hdepth) calls
  obtain ⟨hfault, hlog, hmachine⟩ := (h.after calls).perform call
  exact ⟨hfault, hlog, hmachine, fun log =>
    ⟨answer_of_depth_le log _ hm call, answer_of_depth_le log _ hn call⟩⟩

/-- Within a subroutine one machine is silent, and the other one has a tone to come and other
addresses in its unused slots. They return from it and fail alike, and one of them ticks. -/
theorem sound_and_unused_slots_write_only_tick :
    let m := (Machine.withSeed 7).after [.load [0x22, 0x04, 0x00, 0xEE, 0x22, 0x08, 0x00, 0xEE,
      0x00, 0xEE], .run 3]
    let n := m.withUnread 1 true ⟨m.stack.slots.map fun a => if a = 0x200 then a else 0x123, 1⟩
    m.stack.slots ≠ n.stack.slots ∧ m.AlikeWhereRead n ∧
      (m.step.machine.run 5).fault = some .stackUnderflow ∧
        (n.step.machine.run 5).fault = some .stackUnderflow ∧
          (m.run 5).log.length = 3 ∧ (n.run 5).log.length = 4 ∧
            withoutTones (m.run 5).log = withoutTones (n.run 5).log := by
  intro m n
  have hstacks : m.stack.slots ≠ n.stack.slots ∧ m.stack.depth = 1 ∧ n.stack.depth = 1 ∧
      m.stack.slots[0]? = n.stack.slots[0]? := by
    decide +kernel
  obtain ⟨hslots, hm, hn, hslot⟩ := hstacks
  have hruns : ((m.after [.step]).perform (.run 5)).fault = some .stackUnderflow ∧
      (m.run 5).log.length = 3 ∧ (n.run 5).log.length = 4 := by
    decide +kernel
  obtain ⟨hfault, hthree, hfour⟩ := hruns
  have hpending : m.stack.SamePending n.stack := by
    refine ⟨hm.trans hn.symm, fun k hk => ?_⟩
    obtain rfl : k = 0 := by omega
    exact hslot
  have halike : m.AlikeWhereRead n := ⟨hpending, rfl⟩
  have hle : m.stack.depth ≤ 16 := by omega
  obtain ⟨hresult, -⟩ := sound_and_unused_slots_write_only hle halike [.step] (.run 5)
  obtain ⟨-, hlog, -⟩ := sound_and_unused_slots_write_only hle halike [] (.run 5)
  simp only [Machine.after_nil, Machine.perform] at hlog
  exact ⟨hslots, halike, hfault, hresult.symm.trans hfault, hthree, hfour, hlog⟩

end Hardware

end Chip8
