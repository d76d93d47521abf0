import Chip8.Proofs.Footprint
import Chip8.Proofs.Runs
import Chip8.Proofs.Safety
import Chip8.Proofs.Texts

/-!
# The log

What a step reports is told by the machine before it, the fault that it ends with if it fails, and
the tone after it. A run reports what its steps report, one after the other. So the only warning of
a run that fails is its last line, and a run that succeeds gives none. Different events have
different lines.
-/

namespace Chip8

/-- What can be seen of an event. -/
def Event.line (e : Event) : Level × String := (e.level, e.text)

theorem Event.line_eq_iff (e e' : Event) : e.line = e'.line ↔ e = e' := by
  refine ⟨fun h => ?_, fun h => by rw [h]⟩
  obtain ⟨hlevel, htext⟩ := Prod.mk.inj h
  exact eq_of_text_eq (congrArg Level.name hlevel) htext

def Outcome.lines (o : Outcome) : List (Level × String) := o.log.map Event.line

namespace Machine

/-- The two bytes at the program counter. -/
def opcodeText (m : Machine) : String :=
  Hex.padded 2 (m.memory.read m.pc.toNat).toNat ++
    Hex.padded 2 (m.memory.read (m.pc.toNat + 1)).toNat

def registerTexts (m : Machine) : List String := List.ofFn fun x => toString (m.v x).toNat

def traceLine (m : Machine) (i : Instruction) : Level × String :=
  (.trace, "[" ++ Hex.padded 4 m.pc.toNat ++ "] " ++ m.opcodeText ++ " " ++ i.text ++ " :: [" ++
    ", ".intercalate m.registerTexts ++ "]")

def waitLine (x : Fin 16) : Level × String :=
  (.debug, "waiting for key press into V" ++ Hex.padded 1 x)

def tickLines (m : Machine) : List (Level × String) :=
  if m.tone then [(.debug, "tone tick")] else []

def warnLine (m : Machine) (fault : Fault) : Level × String :=
  (.warn, "fault at 0x" ++ Hex.padded 4 m.pc.toNat ++ ": " ++ fault.message)

/-- The lines that go with a step of `m` that comes to `o`. -/
inductive Reports (m : Machine) (o : Outcome) : List (Level × String) → Prop where
  /-- No instruction could be fetched and decoded. -/
  | unread {fault : Fault} (hnext : m.next? = .error fault) (hfault : o.fault = some fault)
      (hpc : o.machine.pc = m.pc) : Reports m o [m.warnLine fault]
  /-- The instruction could not be executed. -/
  | failed {i : Instruction} {fault : Fault} (hnext : m.next? = .ok i)
      (hfault : o.fault = some fault) (hpc : o.machine.pc = m.pc) :
      Reports m o [m.traceLine i, m.warnLine fault]
  /-- The machine stands still until a key is down. -/
  | held {x : Fin 16} (hnext : m.next? = .ok (.waitForKey x)) (hok : o.fault = none)
      (hkeys : ∀ key, m.isKeyPressed key = false) :
      Reports m o (m.traceLine (.waitForKey x) :: waitLine x :: o.machine.tickLines)
  | executed {i : Instruction} (hnext : m.next? = .ok i) (hok : o.fault = none)
      (hkeys : ∀ x, i = .waitForKey x → ∃ key, m.isKeyPressed key = true) :
      Reports m o (m.traceLine i :: o.machine.tickLines)

end Machine

namespace Outcome

/-- No line is a warning but the last one, which warns of the fault if there is one. -/
def WarnsLast (o : Outcome) : Prop :=
  ∃ earlier, (∀ line ∈ earlier, line.1 ≠ Level.warn) ∧
    o.lines = earlier ++ o.fault.toList.map o.machine.warnLine

theorem lines_after (log : List Event) (o : Outcome) :
    (o.after log).lines = log.map Event.line ++ o.lines :=
  List.map_append

theorem warnsLast_iff_of_success {o : Outcome} (hok : o.fault = none) :
    o.WarnsLast ↔ ∀ line ∈ o.lines, line.1 ≠ Level.warn := by
  simp only [WarnsLast, hok, Option.toList_none, List.map_nil, List.append_nil]
  constructor
  · rintro ⟨earlier, hearlier, rfl⟩
    exact hearlier
  · exact fun h => ⟨o.lines, h, rfl⟩

theorem WarnsLast.andThen {o : Outcome} {next : Machine → Outcome} (ho : o.WarnsLast)
    (hnext : (next o.machine).WarnsLast) : (o.andThen next).WarnsLast := by
  cases hfault : o.fault with
  | some fault => rwa [andThen_of_fault hfault]
  | none =>
      rw [andThen_of_success hfault]
      obtain ⟨earlier, hearlier, hlines⟩ := hnext
      refine ⟨o.lines ++ earlier, ?_, ?_⟩
      · intro line hline
        rcases List.mem_append.1 hline with hfirst | hrest
        · exact (warnsLast_iff_of_success hfault).1 ho line hfirst
        · exact hearlier line hrest
      · rw [lines_after, hlines, List.append_assoc]
        rfl

end Outcome

namespace Machine

/-! ## Texts -/

theorem padded_opcode (m : Machine) : Hex.padded 4 m.opcode.toNat = m.opcodeText := by
  have hhigh := (m.memory.read m.pc.toNat).toNat_lt
  have hlow := (m.memory.read (m.pc.toNat + 1)).toNat_lt
  rw [opcode, UInt16.toNat_ofNat_of_lt' (by simp only [UInt16.size]; omega), opcodeText]
  exact Hex.padded_word _ hlow

theorem map_registers (m : Machine) :
    (m.registers.toList.map fun v => toString v.toNat) = m.registerTexts := by
  apply List.ext_getElem
  · simp only [registerTexts, List.length_map, Vector.length_toList, List.length_ofFn]
  · intro k _ _
    simp only [registerTexts, List.getElem_map, List.getElem_ofFn]
    rfl

theorem line_executing (m : Machine) (i : Instruction) :
    Event.line (.executing m.pc m.opcode i m.registers) = m.traceLine i := by
  calc
    Event.line (.executing m.pc m.opcode i m.registers)
      = (.trace, "[" ++ Hex.padded 4 m.pc.toNat ++ "] " ++ Hex.padded 4 m.opcode.toNat ++ " " ++
          i.text ++ " :: [" ++
          ", ".intercalate (m.registers.toList.map fun v => toString v.toNat) ++ "]") := rfl
    _ = m.traceLine i := by rw [m.padded_opcode, m.map_registers, traceLine]

/-- A trace line tells where the machine is, the opcode there, the instruction and the registers. -/
theorem traceLine_eq_iff (m n : Machine) (i j : Instruction) :
    m.traceLine i = n.traceLine j ↔
      m.pc = n.pc ∧ m.opcode = n.opcode ∧ i = j ∧ m.registers = n.registers := by
  rw [← line_executing, ← line_executing, Event.line_eq_iff, Event.executing.injEq]

theorem line_ticking (m : Machine) :
    (if m.tone then [Event.toneTick] else []).map Event.line = m.tickLines := by
  rw [tickLines]
  split
  · rfl
  · rfl

theorem level_of_mem_tickLines {m : Machine} {line : Level × String} (h : line ∈ m.tickLines) :
    line.1 ≠ .warn := by
  rw [tickLines] at h
  split at h
  · rw [List.mem_singleton.1 h]
    decide
  · cases h

/-! ## One step -/

theorem awaits?_eq_some_iff (m : Machine) (i : Instruction) (x : Fin 16) :
    m.awaits? i = some x ↔ i = .waitForKey x ∧ ∀ key, m.isKeyPressed key = false := by
  cases i with
  | waitForKey y =>
      simp [awaits?, m.keypad.lowest?_eq_none_iff_isPressed, isKeyPressed, and_comm]
  | _ => simp [awaits?]

theorem exists_isKeyPressed_of_awaits? {m : Machine} {x : Fin 16}
    (h : m.awaits? (.waitForKey x) = none) : ∃ key, m.isKeyPressed key = true := by
  apply Keypad.exists_isPressed
  intro hnone
  simp [awaits?, hnone] at h

theorem lines_stop (m : Machine) (i : Instruction) (fault : Fault) :
    (m.stop [.executing m.pc m.opcode i m.registers] fault).lines =
      [m.traceLine i, m.warnLine fault] := by
  rw [← m.line_executing i]
  rfl

theorem lines_pass (m : Machine) (i : Instruction) :
    (m.pass (.executing m.pc m.opcode i m.registers) i).lines =
      m.traceLine i :: ((m.awaits? i).toList.map waitLine ++ (m.advance i).tickLines) := by
  rw [pass, Outcome.lines, List.cons_append, List.map_cons, List.map_append, List.map_map,
    m.line_executing i, line_ticking]
  rfl

theorem reports_step (m : Machine) : m.Reports m.step m.step.lines := by
  cases hnext : m.next? with
  | error fault =>
      rw [step_of_next?_eq_error hnext]
      exact .unread hnext rfl rfl
  | ok i =>
      obtain ⟨opcode, hfetch, -, hstep⟩ := step_of_next?_eq_ok hnext
      obtain rfl : m.opcode = opcode :=
        Except.ok.inj ((fetch_of_le (pc_le_of_next?_eq_ok hnext)).symm.trans hfetch)
      cases hfault : m.fault? i with
      | some fault =>
          rw [hfault] at hstep
          rw [hstep, lines_stop]
          exact .failed hnext rfl rfl
      | none =>
          rw [hfault] at hstep
          have hpass : m.step = m.pass (.executing m.pc m.opcode i m.registers) i := hstep
          rw [hpass, lines_pass]
          -- between the trace and the tick of the tone there is a line just if the machine waits
          cases hawaits : m.awaits? i with
          | some x =>
              obtain ⟨rfl, hkeys⟩ := (m.awaits?_eq_some_iff i x).1 hawaits
              exact .held hnext rfl hkeys
          | none =>
              apply Reports.executed hnext rfl
              rintro x rfl
              exact exists_isKeyPressed_of_awaits? hawaits

theorem warnLine_congr {m n : Machine} (hpc : m.pc = n.pc) (fault : Fault) :
    m.warnLine fault = n.warnLine fault := by
  rw [warnLine, warnLine, hpc]

theorem Reports.warnsLast {m : Machine} {o : Outcome} (h : m.Reports o o.lines) : o.WarnsLast := by
  generalize hlines : o.lines = lines at h
  cases h with
  | unread _ hfault hpc =>
      refine ⟨[], List.forall_mem_nil _, ?_⟩
      rw [hlines, hfault, ← warnLine_congr hpc]
      rfl
  | @failed i _ _ hfault hpc =>
      refine ⟨[m.traceLine i], List.forall_mem_singleton.2 Level.noConfusion, ?_⟩
      rw [hlines, hfault, ← warnLine_congr hpc]
      rfl
  | held _ hok _ =>
      rw [Outcome.warnsLast_iff_of_success hok, hlines, List.forall_mem_cons, List.forall_mem_cons]
      exact ⟨Level.noConfusion, Level.noConfusion, fun _ => level_of_mem_tickLines⟩
  | executed _ hok _ =>
      rw [Outcome.warnsLast_iff_of_success hok, hlines, List.forall_mem_cons]
      exact ⟨Level.noConfusion, fun _ => level_of_mem_tickLines⟩

/-! ## Runs -/

theorem lines_run (m : Machine) (n : Nat) :
    (m.run n).lines = (m.steps n).flatMap fun t => t.before.step.lines := by
  induction n generalizing m with
  | zero => rfl
  | succ n ih =>
      rw [run_succ_eq_andThen, steps, List.flatMap_cons]
      cases hfault : m.step.fault with
      | some fault => rw [Outcome.andThen_of_fault hfault, List.flatMap_nil, List.append_nil]
      | none =>
          rw [Outcome.andThen_of_success hfault, Outcome.lines_after, ih]
          rfl

theorem warnsLast_run (m : Machine) (n : Nat) : (m.run n).WarnsLast := by
  induction n generalizing m with
  | zero => exact ⟨[], List.forall_mem_nil _, rfl⟩
  | succ n ih =>
      rw [run_succ_eq_andThen]
      apply Outcome.WarnsLast.andThen
      · exact m.reports_step.warnsLast
      · exact ih m.step.machine

end Machine

namespace Hardware

/-- After every history a step gives the lines that go with what comes of it. A run gives the lines
of its steps, one step after the other, with a warning just at the end of a run that fails. A trace
line tells the program counter, the opcode, the instruction and the registers, and every line tells
its event. The hardware reports the same. -/
theorem reports_of_steps_and_runs (random : Random.Generator) (history : List Call) (n : Nat) :
    let m := (Machine.powerOn random).after history
    m.Reports m.step m.step.lines ∧
      (m.run n).lines = (m.steps n).flatMap (fun t => t.before.step.lines) ∧
      (∀ t ∈ m.steps n, t.before.Reports t.before.step t.before.step.lines) ∧
      (m.run n).WarnsLast ∧
      (∀ (a b : Machine) (i j : Instruction), a.traceLine i = b.traceLine j ↔
        a.pc = b.pc ∧ a.opcode = b.opcode ∧ i = j ∧ a.registers = b.registers) ∧
      (∀ e e' : Event, e.line = e'.line ↔ e = e') ∧
      ∃ log, replay random history = some (ofMachine log m) ∧
        step (ofMachine log m) = Result.ofOutcome log m.step ∧
        run n (ofMachine log m) = Result.ofOutcome log (m.run n) := by
  intro m
  have hm : m.Reachable := ⟨random, history, rfl⟩
  have hdepth : m.stack.depth ≤ 16 := hm.bounded.depth_le
  obtain ⟨log, hreplay⟩ := replay_eq random history
  refine ⟨m.reports_step, m.lines_run n, fun t _ => t.before.reports_step, m.warnsLast_run n,
    Machine.traceLine_eq_iff, Event.line_eq_iff, log, hreplay, ?_, ?_⟩
  · exact step_ofMachine log m hdepth
  · exact run_ofMachine log m hdepth n

/-- The last tick of the sound timer comes while the machine waits for a key. -/
theorem reports_of_steps_and_runs_held :
    let history : List Call := [.load [0x60, 0x02, 0xF0, 0x18, 0xF1, 0x0A], .run 2]
    let m := (Machine.powerOn (.ofSeed 7)).after history
    ⟨m, m.stepDeed⟩ ∈ m.steps 1 ∧
      m.step.lines =
        [(.trace, "[0204] F10A WaitForKey \x7b x: 1 \x7d :: " ++
          "[2, 0, 0, 0, 0, 0, 0, 0, 0, 0, 0, 0, 0, 0, 0, 0]"),
          (.debug, "waiting for key press into V1"), (.debug, "tone tick")] := by
  intro history m
  have hmember : ⟨m, m.stepDeed⟩ ∈ m.steps 1 := List.mem_cons_self
  have hstate : m.next? = .ok (.waitForKey 1) ∧ m.keypad = .released ∧ m.step.fault = none ∧
      m.step.machine.tone = true ∧
      m.traceLine (.waitForKey 1) = (.trace, "[0204] F10A WaitForKey \x7b x: 1 \x7d :: " ++
        "[2, 0, 0, 0, 0, 0, 0, 0, 0, 0, 0, 0, 0, 0, 0, 0]") := by
    decide +kernel
  obtain ⟨hnext, hkeypad, hok, htone, htrace⟩ := hstate
  obtain ⟨-, -, hsteps, -⟩ := reports_of_steps_and_runs (.ofSeed 7) history 1
  have hm : (Machine.powerOn (.ofSeed 7)).after history = m := rfl
  rw [hm] at hsteps
  -- from here on the machine is known by these facts alone, and nothing evaluates it again
  clear_value m
  have hreports : m.Reports m.step m.step.lines := hsteps ⟨m, m.stepDeed⟩ hmember
  refine ⟨hmember, ?_⟩
  generalize m.step.lines = lines at hreports ⊢
  cases hreports with
  | unread hnext' _ _ =>
      rw [hnext] at hnext'
      cases hnext'
  | failed _ hfault _ =>
      rw [hok] at hfault
      cases hfault
  | held hnext' _ _ =>
      cases hnext.symm.trans hnext'
      rw [htrace, Machine.tickLines, if_pos htone]
      rfl
  | executed hnext' _ hkeys =>
      cases hnext.symm.trans hnext'
      obtain ⟨key, hdown⟩ := hkeys 1 rfl
      rw [Machine.isKeyPressed, hkeypad, Keypad.isPressed_released] at hdown
      cases hdown

end Hardware

end Chip8
