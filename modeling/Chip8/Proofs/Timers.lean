import Chip8.Proofs.Footprint
import Mathlib.Data.List.Induction

/-!
# Timers

A timer loses one with every instruction that is executed and with nothing else. What is left of it
is what it was set to less the number of instructions executed since then, and the tone sounds
after the one of them that brings the sound timer down to zero.
-/

namespace Chip8

inductive Timer where
  | delay
  | sound
  deriving DecidableEq

namespace Timer

def value (timer : Timer) (m : Machine) : Nat :=
  match timer with
  | delay => m.delayTimer.toNat
  | sound => m.soundTimer.toNat

/-- The instruction that copies `Vx` to the timer. -/
def setFrom (timer : Timer) (x : Fin 16) : Instruction :=
  match timer with
  | delay => .setDelayTimer x
  | sound => .setSoundTimer x

end Timer

namespace Deed

/-- Both timers run down with these deeds. -/
def ticks : Deed → Bool
  | executed _ => true
  | _ => false

/-- A deed that gives the timer a new value, whatever the old one was. -/
def sets (timer : Timer) : Deed → Bool
  | reset => true
  | executed (.setDelayTimer _) => timer = .delay
  | executed (.setSoundTimer _) => timer = .sound
  | _ => false

end Deed

theorem exists_executed_of_ticks {deed : Deed} (h : deed.ticks = true) :
    ∃ i, deed = .executed i := by
  cases deed with
  | executed i => exact ⟨i, rfl⟩
  | _ => cases h

/-! ## Counting instructions -/

/-- How many instructions were executed. -/
def tickCount (ts : List Moment) : Nat := ts.countP fun t => t.deed.ticks

@[simp] theorem tickCount_nil : tickCount [] = 0 := rfl

theorem tickCount_cons (t : Moment) (ts : List Moment) :
    tickCount (t :: ts) = tickCount ts + if t.deed.ticks then 1 else 0 := by
  rw [tickCount, List.countP_cons, tickCount]

theorem tickCount_concat (ts : List Moment) (t : Moment) :
    tickCount (ts ++ [t]) = tickCount ts + if t.deed.ticks then 1 else 0 := by
  rw [tickCount, List.countP_append, List.countP_singleton, tickCount]

/-- Of the executed instructions, number `n` alone has a property, if there are so many. -/
theorem countP_of_number {n : Nat} {P : Moment → Bool} {ts : List Moment}
    (h : ∀ done t rest, ts = done ++ t :: rest → t.deed.ticks = true →
      (P t = true ↔ tickCount (done ++ [t]) = n)) :
    (ts.countP fun t => t.deed.ticks && P t) = if 1 ≤ n ∧ n ≤ tickCount ts then 1 else 0 := by
  induction ts using List.reverseRecOn with
  | nil =>
      have hnone : ¬(1 ≤ n ∧ n ≤ 0) := by omega
      rw [tickCount_nil, if_neg hnone, List.countP_nil]
  | append_singleton ts t ih =>
      have hlast := h ts t [] rfl
      rw [tickCount_concat] at hlast ⊢
      rw [List.countP_append, List.countP_singleton, ih fun done u rest hts => h done u (rest ++ [t])
        (by rw [hts, List.append_assoc, List.cons_append])]
      cases ht : t.deed.ticks with
      | false => simp
      | true =>
          simp only [ht, Bool.true_and, if_true] at hlast ⊢
          by_cases hn : tickCount ts + 1 = n
          · have hbefore : ¬(1 ≤ n ∧ n ≤ tickCount ts) := by omega
            have hnow : 1 ≤ n ∧ n ≤ tickCount ts + 1 := by omega
            rw [if_neg hbefore, if_pos ((hlast trivial).2 hn), if_pos hnow]
          · have hP : ¬P t = true := fun hP => hn ((hlast trivial).1 hP)
            have hsame : 1 ≤ n ∧ n ≤ tickCount ts ↔ 1 ≤ n ∧ n ≤ tickCount ts + 1 := by omega
            rw [if_neg hP]
            exact if_congr hsame rfl rfl

/-! ## One deed -/

namespace Timer

theorem value_afterDeed (timer : Timer) (m : Machine) {deed : Deed}
    (hdeed : deed.sets timer = false) :
    timer.value (m.afterDeed deed) = timer.value m - if deed.ticks then 1 else 0 := by
  cases deed with
  | executed i =>
      have hadvance := m.footprint_advance i
      cases timer with
      | delay =>
          cases i with
          | setDelayTimer x => cases hdeed
          | _ => exact hadvance.delayTimer
      | sound =>
          cases i with
          | setSoundTimer x => cases hdeed
          | _ => exact hadvance.soundTimer
  | reset => cases hdeed
  | failed _ | loaded _ | refused _ | keyed _ =>
      cases timer with
      | _ => rfl

theorem value_after_set (timer : Timer) {set : Moment} {x : Fin 16}
    (hset : set.deed = .executed (timer.setFrom x)) :
    timer.value set.after = (set.before.v x).toNat - 1 := by
  have hadvance := set.before.footprint_advance (timer.setFrom x)
  rw [Moment.after, hset]
  cases timer with
  | delay => exact hadvance.delayTimer
  | sound => exact hadvance.soundTimer

end Timer

namespace Machine

theorem soundActive_iff (m : Machine) : m.soundActive = true ↔ 0 < m.soundTimer.toNat := by
  rw [soundActive, bne_iff_ne, ne_eq, ← UInt8.toNat_inj, Nat.pos_iff_ne_zero]
  rfl

/-- The tone sounds if the instruction leaves the sound timer at one. -/
theorem tone_advance (m : Machine) (i : Instruction) :
    (m.advance i).tone = true ↔ (m.effect i).soundTimer.toNat = 1 :=
  tone_tick { m.effect i with pc := m.nextPc i }

theorem v_advance_loadDelayTimer (m : Machine) (x : Fin 16) :
    (m.advance (.loadDelayTimer x)).v x = m.delayTimer :=
  (m.v_setV x m.delayTimer x).trans (if_pos rfl)

end Machine

/-! ## Whole paths -/

/-- A timer that nothing sets on the way loses one for each executed instruction. -/
theorem Path.countDown (timer : Timer) {first last : Machine} {ts : List Moment}
    (hpath : Path first ts last) (hts : ∀ t ∈ ts, t.deed.sets timer = false) :
    timer.value last = timer.value first - tickCount ts := by
  induction hpath with
  | nil m => exact (Nat.sub_zero _).symm
  | @cons m last deed rest _ _ ih =>
      obtain ⟨hdeed, hrest⟩ := List.forall_mem_cons.1 hts
      rw [ih hrest, timer.value_afterDeed m hdeed, tickCount_cons, Nat.sub_sub, Nat.add_comm]

theorem Path.countDown_after (timer : Timer) {set : Moment} {x : Fin 16}
    (hset : set.deed = .executed (timer.setFrom x)) {last : Machine} {ts : List Moment}
    (hpath : Path set.after ts last) (hts : ∀ t ∈ ts, t.deed.sets timer = false) :
    timer.value last = (set.before.v x).toNat - (tickCount ts + 1) := by
  rw [hpath.countDown timer hts, timer.value_after_set hset, Nat.sub_sub, Nat.add_comm]

namespace Machine

/-- What an instruction of the countdown finds in the sound timer, or puts there if it is the
first one. -/
theorem soundTimer_effect_of_path {set : Moment} {x : Fin 16} {body later : List Moment}
    {last : Machine} (hset : set.deed = .executed (.setSoundTimer x))
    (hpath : Path set.after (body ++ later) last)
    (hbody : ∀ t ∈ body, t.deed.sets .sound = false) {done rest : List Moment} {t : Moment}
    (hsplit : set :: body = done ++ t :: rest) {i : Instruction} (ht : t.deed = .executed i) :
    (t.before.effect i).soundTimer.toNat = (set.before.v x).toNat - tickCount done := by
  cases done with
  | nil =>
      -- the instruction that sets the timer, which runs down only after it
      obtain ⟨rfl, -⟩ := List.cons.inj hsplit
      obtain rfl : i = .setSoundTimer x := by simpa [hset, eq_comm] using ht
      rfl
  | cons s done =>
      rw [List.cons_append] at hsplit
      obtain ⟨rfl, rfl⟩ := List.cons.inj hsplit
      rw [List.append_assoc, List.cons_append] at hpath
      obtain ⟨hdone, -, -⟩ := hpath.cut
      have hbefore : t.before.soundTimer.toNat = (set.before.v x).toNat - (tickCount done + 1) :=
        hdone.countDown_after .sound hset fun u hu => hbody u (List.mem_append_left _ hu)
      have hsets : t.deed.sets .sound = false := hbody t (by simp)
      have hkept : (t.before.effect i).soundTimer = t.before.soundTimer := by
        rw [soundTimer_effect]
        rw [ht] at hsets
        cases i with
        | setSoundTimer y => cases hsets
        | _ => rfl
      rw [hkept, hbefore, tickCount_cons, hset]
      rfl

/-- Number `j` of the instructions from one that sets the sound timer to `v` on leaves it at
`v - j`, and the tone sounds after number `v` alone. So there is one tone if `v` is positive and
the machine gets so far, and else there is none. -/
theorem one_tone_per_countdown (m : Machine) (calls : List Call)
    {earlier body later : List Moment} {set : Moment} {x : Fin 16}
    (hpast : m.timeline calls = earlier ++ set :: (body ++ later))
    (hset : set.deed = .executed (.setSoundTimer x))
    (hbody : ∀ t ∈ body, t.deed.sets .sound = false) :
    let v := (set.before.v x).toNat
    (∀ done t rest, set :: body = done ++ t :: rest → t.deed.ticks = true →
      let j := tickCount (done ++ [t])
      t.after.soundTimer.toNat = v - j ∧ (t.after.soundActive = true ↔ j < v) ∧
        (t.after.tone = true ↔ j = v)) ∧
      ((set :: body).countP fun t => t.deed.ticks && t.after.tone) =
        if 1 ≤ v ∧ v ≤ tickCount (set :: body) then 1 else 0 := by
  intro v
  have hpath := m.path_timeline calls
  rw [hpast] at hpath
  obtain ⟨-, -, hrest⟩ := hpath.cut
  have hstep : ∀ done t rest, set :: body = done ++ t :: rest → t.deed.ticks = true →
      let j := tickCount (done ++ [t])
      t.after.soundTimer.toNat = v - j ∧ (t.after.soundActive = true ↔ j < v) ∧
        (t.after.tone = true ↔ j = v) := by
    intro done t rest hsplit hticks j
    obtain ⟨i, hi⟩ := exists_executed_of_ticks hticks
    have heffect := soundTimer_effect_of_path hset hrest hbody hsplit hi
    have hj : j = tickCount done + 1 := (tickCount_concat done t).trans (by rw [if_pos hticks])
    have hafter : t.after = t.before.advance i := by rw [Moment.after, hi, afterDeed]
    have htimer : t.after.soundTimer.toNat = v - j := by
      rw [hafter, hj, ← Nat.sub_sub, ← heffect]
      exact toNat_countDown _
    refine ⟨htimer, ?_, ?_⟩
    · rw [soundActive_iff, htimer]
      omega
    · rw [hafter, tone_advance, heffect]
      omega
  exact ⟨hstep, countP_of_number fun done t rest hsplit hticks =>
    (hstep done t rest hsplit hticks).2.2⟩

/-- A sound timer of 3, a key wait and another program: the third instruction of the countdown
has the tone. -/
theorem one_tone_per_countdown_held :
    let calls : List Call := [.load [0x60, 0x03, 0xF0, 0x18, 0xF1, 0x0A], .run 2, .keyUp 4, .step,
      .load [0x71, 0x01], .step]
    ∃ earlier set body last,
      (withSeed 7).timeline calls = earlier ++ set :: ((body ++ [last]) ++ []) ∧
        set.deed = .executed (.setSoundTimer 0) ∧ (set.before.v 0).toNat = 3 ∧
          last.deed = .executed (.addByte 1 1) ∧ last.after.tone = true ∧
            ((set :: (body ++ [last])).countP fun t => t.deed.ticks && t.after.tone) = 1 := by
  intro calls
  have hdeeds : ((withSeed 7).timeline calls).map (fun t => (t.deed, (t.before.v 0).toNat)) =
      [(.loaded [0x60, 0x03, 0xF0, 0x18, 0xF1, 0x0A], 0), (.executed (.loadByte 0 3), 0),
        (.executed (.setSoundTimer 0), 3), (.keyed .released, 3), (.executed (.waitForKey 1), 3),
        (.loaded [0x71, 0x01], 3), (.executed (.addByte 1 1), 3)] := by
    decide +kernel
  simp only [List.map_eq_cons_iff, List.map_eq_nil_iff, Prod.mk.injEq] at hdeeds
  obtain ⟨load, _, hpast, -, three, _, rfl, -, set, _, rfl, hset, key, _, rfl, hkey, held, _, rfl,
    hheld, loaded, _, rfl, hloaded, last, _, rfl, hlast, rfl⟩ := hdeeds
  have hsplit : (withSeed 7).timeline calls =
      [load, three] ++ set :: (([key, held, loaded] ++ [last]) ++ []) := hpast
  have hbody : ∀ t ∈ [key, held, loaded] ++ [last], t.deed.sets .sound = false := by
    simp [hkey, hheld, hloaded, hlast, Deed.sets]
  have hthree : tickCount ([set, key, held, loaded] ++ [last]) = 3 := by
    simp [tickCount_cons, hset, hkey, hheld, hloaded, hlast, Deed.ticks]
  obtain ⟨hsteps, hcount⟩ := one_tone_per_countdown (withSeed 7) calls hsplit hset.1 hbody
  have htone := (hsteps [set, key, held, loaded] last [] rfl (by rw [hlast.1]; rfl)).2.2
  rw [hthree, hset.2] at htone
  refine ⟨[load, three], set, [key, held, loaded], last, hsplit, hset.1, hset.2, hlast.1,
    htone.2 rfl, hcount.trans ?_⟩
  rw [hset.2]
  exact if_pos ⟨by decide, Nat.le_of_eq hthree.symm⟩

/-- The instruction that reads the delay timer, `k` instructions after the one that set it to `v`,
gives `v - k`. All other deeds on the way leave the timer as it is. -/
theorem delay_reads_back (m : Machine) (calls : List Call) {earlier body later : List Moment}
    {set read : Moment} {x y : Fin 16}
    (hpast : m.timeline calls = earlier ++ set :: (body ++ read :: later))
    (hset : set.deed = .executed (.setDelayTimer x))
    (hread : read.deed = .executed (.loadDelayTimer y))
    (hbody : ∀ t ∈ body, t.deed.sets .delay = false) :
    let k := tickCount (body ++ [read])
    (read.after.v y).toNat = (set.before.v x).toNat - k ∧
      ∀ t ∈ body, t.after.delayTimer.toNat =
        t.before.delayTimer.toNat - if t.deed.ticks then 1 else 0 := by
  intro k
  have hpath := m.path_timeline calls
  rw [hpast] at hpath
  obtain ⟨-, -, hrest⟩ := hpath.cut
  obtain ⟨hmiddle, -, -⟩ := hrest.cut
  have htimer := hmiddle.countDown_after .delay hset hbody
  have hk : k = tickCount body + 1 := by
    refine (tickCount_concat body read).trans ?_
    rw [hread]
    rfl
  refine ⟨?_, fun t ht => Timer.delay.value_afterDeed t.before (hbody t ht)⟩
  rw [Moment.after, hread, afterDeed, v_advance_loadDelayTimer, hk]
  exact htimer

/-- A fault, another program and a key wait come between a delay of 9 and its reading by the third
instruction from there. -/
theorem delay_reads_back_fault :
    let calls : List Call := [.load [0x60, 0x09, 0xF0, 0x15, 0x00, 0x00], .run 3,
      .load [0xF1, 0x0A, 0xF2, 0x07], .step, .keyDown 5, .run 2]
    ∃ earlier set body read, (withSeed 7).timeline calls = earlier ++ set :: (body ++ read :: []) ∧
      set.deed = .executed (.setDelayTimer 0) ∧ (set.before.v 0).toNat = 9 ∧
        read.deed = .executed (.loadDelayTimer 2) ∧ (read.after.v 2).toNat = 6 := by
  intro calls
  have hdeeds : ((withSeed 7).timeline calls).map (fun t => (t.deed, (t.before.v 0).toNat)) =
      [(.loaded [0x60, 0x09, 0xF0, 0x15, 0x00, 0x00], 0), (.executed (.loadByte 0 9), 0),
        (.executed (.setDelayTimer 0), 9), (.failed (.illegalOpcode 0), 9),
        (.loaded [0xF1, 0x0A, 0xF2, 0x07], 9), (.executed (.waitForKey 1), 9),
        (.keyed (Keypad.released.press 5), 9), (.executed (.waitForKey 1), 9),
        (.executed (.loadDelayTimer 2), 9)] := by
    decide +kernel
  simp only [List.map_eq_cons_iff, List.map_eq_nil_iff, Prod.mk.injEq] at hdeeds
  obtain ⟨load, _, hpast, -, nine, _, rfl, -, set, _, rfl, hset, failed, _, rfl, hfailed,
    loaded, _, rfl, hloaded, held, _, rfl, hheld, key, _, rfl, hkey, wait, _, rfl, hwait,
    read, _, rfl, hread, rfl⟩ := hdeeds
  have hsplit : (withSeed 7).timeline calls =
      [load, nine] ++ set :: ([failed, loaded, held, key, wait] ++ read :: []) := hpast
  have hbody : ∀ t ∈ [failed, loaded, held, key, wait], t.deed.sets .delay = false := by
    simp [hfailed, hloaded, hheld, hkey, hwait, Deed.sets]
  have hthree : tickCount ([failed, loaded, held, key, wait] ++ [read]) = 3 := by
    simp [tickCount_cons, hfailed, hloaded, hheld, hkey, hwait, hread, Deed.ticks]
  have hread' := (delay_reads_back (withSeed 7) calls hsplit hset.1 hread.1 hbody).1
  rw [hthree, hset.2] at hread'
  exact ⟨_, set, _, read, hsplit, hset.1, hset.2, hread.1, hread'⟩

end Machine

end Chip8
