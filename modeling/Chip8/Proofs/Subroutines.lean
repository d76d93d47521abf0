import Chip8.Proofs.Bounds
import Chip8.Proofs.Timeline

/-!
# Subroutines

The slots below the depth of the stack are the list of the pending calls. A call appends its
address to this list, a return takes the last one off, and a pending call keeps its place until
the return that belongs to it. So that return goes on right behind the call.
-/

namespace Chip8

namespace Machine

/-- The addresses of the pending calls, the latest one last. -/
def pending (m : Machine) : List UInt16 := m.stack.toList

theorem Bounded.length_pending {m : Machine} (hm : m.Bounded) :
    m.pending.length = m.stack.depth :=
  m.stack.length_toList hm.depth_le

theorem fault?_call_eq_none_iff (m : Machine) (addr : Fin 4096) :
    m.fault? (.call addr) = none ↔ m.stack.depth < 16 := by
  simp [fault?]

theorem fault?_ret_eq_none_iff (m : Machine) : m.fault? .ret = none ↔ m.stack.depth ≠ 0 := by
  simp [fault?]

end Machine

/-- What a deed makes of the list of pending calls. -/
def Moment.pendingAfter (calls : List UInt16) (t : Moment) : List UInt16 :=
  match t.deed with
  | .executed (.call _) => calls ++ [t.before.pc]
  | .executed .ret => calls.dropLast
  | .reset => []
  | _ => calls

namespace Machine

theorem pending_afterDeed {m : Machine} (hm : m.Bounded) {deed : Deed} (hdeed : m.Does deed) :
    (m.afterDeed deed).pending = Moment.pendingAfter m.pending ⟨m, deed⟩ := by
  cases hdeed with
  | @executed i hnext hfault =>
      have hadvance : (m.afterDeed (.executed i)).pending = (m.effect i).stack.toList := rfl
      rw [hadvance, stack_effect]
      cases i with
      | call addr => exact m.stack.toList_push m.pc ((m.fault?_call_eq_none_iff addr).1 hfault)
      | ret => exact m.stack.toList_pop hm.depth_le
      | _ => rfl
  | _ => rfl

theorem pending_after (random : Random.Generator) (history : List Call) :
    ((powerOn random).after history).pending =
      ((powerOn random).timeline history).foldl Moment.pendingAfter [] := by
  refine timeline_invariant (P := fun past m => m.pending = past.foldl Moment.pendingAfter [])
    random rfl ?_ history
  intro past m deed hm hdeed hpast
  rw [pending_afterDeed hm.bounded hdeed, List.foldl_append, List.foldl_cons, List.foldl_nil,
    ← hpast]

/-! ## One call and one return -/

theorem step_call {m : Machine} (hm : m.Bounded) {addr : Fin 4096}
    (hnext : m.next? = .ok (.call addr)) :
    (m.step.fault = none ↔ m.pending.length < 16) ∧
      (m.step.fault = none → m.step.machine.pending = m.pending ++ [m.pc] ∧
        m.step.machine.pc.toNat = addr) := by
  rw [step_fault_of_next? hnext, hm.length_pending]
  refine ⟨m.fault?_call_eq_none_iff addr, fun hfault => ?_⟩
  rw [machine_step_of_executed hnext hfault]
  exact ⟨pending_afterDeed hm (.executed hnext hfault), toNat_ofNat_addr addr⟩

theorem after_ret {m : Machine} (hm : m.Bounded) (hdeed : m.Does (.executed .ret)) :
    ∃ a, m.pending = (m.advance .ret).pending ++ [a] ∧
      (m.advance .ret).pc.toNat = a.toNat + 2 := by
  have hpop : (m.advance .ret).pending = m.pending.dropLast := pending_afterDeed hm hdeed
  cases hdeed with
  | executed hnext hfault =>
      have hdepth : m.stack.depth ≠ 0 := m.fault?_ret_eq_none_iff.1 hfault
      have htop : m.pending.getLast? = some m.stack.top :=
        m.stack.getLast?_toList hm.depth_le (Nat.pos_of_ne_zero hdepth)
      obtain ⟨lower, hlower⟩ := List.getLast?_eq_some_iff.1 htop
      refine ⟨m.stack.top, ?_, toNat_add_two (Nat.le_trans hm.top_le (by decide))⟩
      rw [hpop, hlower, List.dropLast_concat]

theorem step_ret {m : Machine} (hm : m.Bounded) (hnext : m.next? = .ok .ret) :
    (m.step.fault = none ↔ m.pending ≠ []) ∧
      (m.step.fault = none → ∃ a, m.pending = m.step.machine.pending ++ [a] ∧
        m.step.machine.pc.toNat = a.toNat + 2) := by
  rw [step_fault_of_next? hnext, ← List.length_pos_iff, hm.length_pending, Nat.pos_iff_ne_zero]
  refine ⟨m.fault?_ret_eq_none_iff, fun hfault => ?_⟩
  rw [machine_step_of_executed hnext hfault]
  exact after_ret hm (.executed hnext hfault)

/-! ## A call and the return that belongs to it -/

/-- A call, what happens while the stack is deeper than before it, and what brings the depth
back, without a reset on the way. -/
structure Subroutine (call : Moment) (body : List Moment) (back : Moment) : Prop where
  calls : ∃ addr, call.deed = .executed (.call addr)
  deeper : ∀ t ∈ body, t.after.stack.depth ≠ call.before.stack.depth
  returns : back.after.stack.depth = call.before.stack.depth
  no_reset : ∀ t ∈ body ++ [back], t.deed ≠ .reset

/-- Without a reset, a pending call stays pending, or this deed is the return from it. -/
theorem pendingAfter_of_pending (calls upper : List UInt16) (p : UInt16) {t : Moment}
    (hreset : t.deed ≠ .reset) :
    (∃ upper', Moment.pendingAfter (calls ++ p :: upper) t = calls ++ p :: upper') ∨
      t.deed = .executed .ret ∧ upper = [] ∧
        Moment.pendingAfter (calls ++ p :: upper) t = calls := by
  obtain ⟨m, deed⟩ := t
  cases deed with
  | executed i =>
      cases i with
      | call addr => exact Or.inl ⟨upper ++ [m.pc], by simp [Moment.pendingAfter]⟩
      | ret =>
          simp only [Moment.pendingAfter]
          rcases List.eq_nil_or_concat upper with rfl | ⟨lower, a, rfl⟩
          · exact Or.inr ⟨trivial, rfl, List.dropLast_concat⟩
          · refine Or.inl ⟨lower, ?_⟩
            rw [List.concat_eq_append, ← List.cons_append, ← List.append_assoc,
              List.dropLast_concat]
      | _ => exact Or.inl ⟨upper, rfl⟩
  | reset => exact absurd rfl hreset
  | _ => exact Or.inl ⟨upper, rfl⟩

/-- A call stays pending as long as the depth does not come back to what it was before it. -/
theorem pending_of_path {first last : Machine} {ts : List Moment} (hpath : Path first ts last)
    (hfirst : first.Reachable) {calls upper : List UInt16} {p : UInt16}
    (hpending : first.pending = calls ++ p :: upper)
    (hts : ∀ t ∈ ts, t.deed ≠ .reset ∧ t.after.stack.depth ≠ calls.length) :
    ∃ upper', last.pending = calls ++ p :: upper' := by
  induction hpath generalizing upper with
  | nil => exact ⟨upper, hpending⟩
  | @cons m last deed rest hdeed _ ih =>
      obtain ⟨hreset, hdepth⟩ := hts ⟨m, deed⟩ List.mem_cons_self
      have hnext := hfirst.afterDeed hdeed
      have hafter := pending_afterDeed hfirst.bounded hdeed
      rw [hpending] at hafter
      have hkept : ∃ upper', (m.afterDeed deed).pending = calls ++ p :: upper' := by
        rcases pendingAfter_of_pending calls upper p hreset with ⟨upper', h⟩ | ⟨-, -, h⟩
        · exact ⟨upper', hafter.trans h⟩
        · -- a return from this very call would bring the depth back
          rw [h] at hafter
          exact absurd (hafter ▸ hnext.bounded.length_pending.symm) hdepth
      obtain ⟨upper', hupper⟩ := hkept
      exact ih hnext hupper fun t ht => hts t (List.mem_cons_of_mem _ ht)

/-- What brings the depth back after a call is the return from it. -/
theorem Subroutine.back {call back : Moment} {body : List Moment}
    (h : Subroutine call body back) (hreach : call.before.Reachable)
    (hcall : call.before.Does call.deed) (hbody : Path call.after body back.before)
    (hback : back.before.Does back.deed) :
    back.deed = .executed .ret ∧ back.after.pending = call.before.pending ∧
      back.after.pc.toNat = call.before.pc.toNat + 2 := by
  obtain ⟨addr, haddr⟩ := h.calls
  have hafter : call.after.Reachable := hreach.afterDeed hcall
  have hpush : call.after.pending = call.before.pending ++ [call.before.pc] := by
    rw [Moment.after, pending_afterDeed hreach.bounded hcall, Moment.pendingAfter, haddr]
  have hdepth := hreach.bounded.length_pending
  obtain ⟨upper, hupper⟩ := pending_of_path hbody hafter hpush fun t ht =>
    ⟨h.no_reset t (List.mem_append_left _ ht), hdepth ▸ h.deeper t ht⟩
  have hlast : back.before.Reachable := hafter.of_path hbody
  have hend : back.after.Reachable := hlast.afterDeed hback
  have hreturned : back.after.pending.length = call.before.pending.length := by
    rw [hend.bounded.length_pending, hdepth]
    exact h.returns
  have hpending : back.after.pending = Moment.pendingAfter back.before.pending back :=
    pending_afterDeed hlast.bounded hback
  rw [hupper] at hpending
  have hreset : back.deed ≠ .reset := h.no_reset back (by simp)
  rcases pendingAfter_of_pending call.before.pending upper call.before.pc hreset with
    ⟨upper', hstill⟩ | ⟨hret, rfl, hpopped⟩
  · -- the call would still be pending, so the stack would be deeper than before it
    rw [hpending, hstill] at hreturned
    simp at hreturned
  · have hrest := hpending.trans hpopped
    refine ⟨hret, hrest, ?_⟩
    rw [hret] at hback
    obtain ⟨a, ha, hpc⟩ := after_ret hlast.bounded hback
    have hadvance : back.after = back.before.advance .ret := by rw [Moment.after, hret, afterDeed]
    rw [← hadvance, hrest, hupper] at ha
    obtain rfl : call.before.pc = a := by simpa using ha
    rw [hadvance, hpc]

/-- The pending calls form a list of at most sixteen addresses that only calls, returns and resets
change. A call succeeds if there is room for one more address, a return if there is any, and it
goes on behind the call that it belongs to, with the calls below as they were. -/
theorem pending_refines_list (random : Random.Generator) (history : List Call) :
    let m := (powerOn random).after history
    let past := (powerOn random).timeline history
    (m.pending.length = m.stack.depth ∧ m.pending.length ≤ 16 ∧
      m.pending = past.foldl Moment.pendingAfter []) ∧
      (∀ addr, m.next? = .ok (.call addr) →
        (m.step.fault = none ↔ m.pending.length < 16) ∧
          (m.step.fault = none → m.step.machine.pending = m.pending ++ [m.pc] ∧
            m.step.machine.pc.toNat = addr)) ∧
      (m.next? = .ok .ret →
        (m.step.fault = none ↔ m.pending ≠ []) ∧
          (m.step.fault = none → ∃ a, m.pending = m.step.machine.pending ++ [a] ∧
            m.step.machine.pc.toNat = a.toNat + 2)) ∧
      ∀ earlier call body back later, past = earlier ++ call :: (body ++ back :: later) →
        Subroutine call body back →
          back.deed = .executed .ret ∧ back.after.pending = call.before.pending ∧
            back.after.pc.toNat = call.before.pc.toNat + 2 := by
  intro m past
  have hm : m.Bounded := Reachable.bounded ⟨random, history, rfl⟩
  have hlength := hm.length_pending
  refine ⟨⟨hlength, hlength ▸ hm.depth_le, pending_after random history⟩,
    fun addr hnext => step_call hm hnext, fun hnext => step_ret hm hnext, ?_⟩
  intro earlier call body back later hpast hsub
  have hpath := (powerOn random).path_timeline history
  rw [show (powerOn random).timeline history = _ from hpast] at hpath
  obtain ⟨hearlier, hcall, hrest⟩ := hpath.cut
  obtain ⟨hbody, hback, -⟩ := hrest.cut
  exact hsub.back ((Reachable.powerOn random).of_path hearlier) hcall hbody hback

/-- A call whose subroutine calls another one is a `Subroutine`. -/
theorem pending_refines_list_nested :
    let program := [0x22, 0x06, 0x12, 0x02, 0x00, 0x00, 0x22, 0x0A, 0x00, 0xEE, 0x00, 0xEE]
    let past := (powerOn (.ofSeed 7)).timeline [.load program, .run 4]
    ∃ load call inner innerBack back, past = [load] ++ call :: ([inner, innerBack] ++ [back]) ∧
      Subroutine call [inner, innerBack] back ∧ inner.deed = .executed (.call 0x20A) ∧
        back.after.pc.toNat = call.before.pc.toNat + 2 := by
  intro program past
  have hdeeds : past.map (fun t => (t.deed, t.before.stack.depth, t.after.stack.depth)) =
      [(.loaded program, 0, 0), (.executed (.call 0x206), 0, 1),
        (.executed (.call 0x20A), 1, 2), (.executed .ret, 2, 1), (.executed .ret, 1, 0)] := by
    decide +kernel
  simp only [List.map_eq_cons_iff, List.map_eq_nil_iff] at hdeeds
  obtain ⟨load, _, hpast, -, call, _, rfl, hcall, inner, _, rfl, hinner, innerBack, _, rfl,
    hinnerBack, back, _, rfl, hback, rfl⟩ := hdeeds
  simp only [Prod.mk.injEq] at hcall hinner hinnerBack hback
  have hsub : Subroutine call [inner, innerBack] back := by
    refine ⟨⟨_, hcall.1⟩, ?_, hback.2.2.trans hcall.2.1.symm, ?_⟩
    · simp [hcall, hinner, hinnerBack]
    · simp [hinner, hinnerBack, hback]
  have hreturned := (pending_refines_list (.ofSeed 7) [.load program, .run 4]).2.2.2
    [load] call [inner, innerBack] back [] hpast hsub
  exact ⟨load, call, inner, innerBack, back, hpast, hsub, hinner.1, hreturned.2.2⟩

end Machine

end Chip8
