import Chip8.Proofs.FaultCauses
import Chip8.Proofs.Runs
import Chip8.Proofs.Safety
import Mathlib.Algebra.Ring.Parity

/-!
# Instructions at even addresses

A program starts at an even address and every instruction takes two bytes. So the program counter
stays even as long as no jump and no call leads to an odd address, whatever is loaded, reset or
fails in between. The addresses on the stack are even with it, as a return goes on behind one.
-/

namespace Chip8

/-- The address to which a jump or a call leads. -/
def Moment.target? (t : Moment) : Option Nat :=
  match t.deed with
  | .executed (.jump addr) | .executed (.call addr) => some addr
  | .executed (.jumpOffset addr) => some (addr + (t.before.register 0).toNat)
  | _ => none

namespace Machine

/-- The program counter and all stack slots are even, also the slots that hold no pending call. -/
structure Aligned (m : Machine) : Prop where
  pc : Even m.pc.toNat
  slots : ∀ slot ∈ m.stack.slots, Even slot.toNat

/-- The two bytes at the program counter belong to two words. -/
def Straddles (m : Machine) : Prop := m.pc.toNat / 2 ≠ (m.pc.toNat + 1) / 2

theorem Aligned.not_straddles {m : Machine} (hm : m.Aligned) : ¬m.Straddles := by
  have hpc := Nat.even_iff.1 hm.pc
  rw [Straddles, not_not]
  omega

/-! ## One deed -/

/-- Also where a sum of words wraps around, since the number of words is even. -/
theorem even_toNat_add {a b : UInt16} (hb : Even b.toNat) : Even (a + b).toNat ↔ Even a.toNat := by
  rw [Nat.even_iff] at hb
  rw [UInt16.toNat_add, Nat.even_iff, Nat.even_iff]
  omega

theorem Aligned.even_top {m : Machine} (hm : m.Aligned) : Even m.stack.top.toNat := by
  rcases m.stack.top_eq_zero_or_mem with hzero | hslot
  · rw [hzero]
    exact Even.zero
  · exact hm.slots _ hslot

theorem even_nextPc_iff {m : Machine} (hm : m.Aligned) (i : Instruction) :
    Even (m.nextPc i).toNat ↔ ∀ a ∈ Moment.target? ⟨m, .executed i⟩, Even a := by
  have htwo : Even (m.pc + 2).toNat := (even_toNat_add (by decide)).2 hm.pc
  have hskip : ∀ skip, Even (m.skipIf skip).toNat := by
    intro skip
    cases skip with
    | true => exact (even_toNat_add (by decide)).2 hm.pc
    | false => exact htwo
  have hnone : ∀ a ∈ (none : Option Nat), Even a := fun a ha => nomatch ha
  have hsome : ∀ target : Nat, Even target ↔ ∀ a ∈ some target, Even a := by simp
  cases i with
  | jump addr | call addr =>
      rw [nextPc, toNat_ofNat_addr]
      exact hsome _
  | jumpOffset addr =>
      rw [nextPc, toNat_jumpOffset]
      exact hsome _
  | ret => exact iff_of_true ((even_toNat_add (by decide)).2 hm.even_top) hnone
  | skipIfEqualByte x kk | skipIfNotEqualByte x kk | skipIfEqual x y | skipIfNotEqual x y
  | skipIfKeyPressed x | skipIfKeyNotPressed x => exact iff_of_true (hskip _) hnone
  | waitForKey x =>
      refine iff_of_true ?_ hnone
      simp only [nextPc]
      split
      · exact hm.pc
      · exact htwo
  | _ => exact iff_of_true htwo hnone

theorem Aligned.even_slots_effect {m : Machine} (hm : m.Aligned) (i : Instruction) :
    ∀ slot ∈ (m.effect i).stack.slots, Even slot.toNat := by
  intro slot hslot
  rw [stack_effect] at hslot
  cases i with
  | call addr =>
      rcases CallStack.mem_slots_push hslot with rfl | hold
      · exact hm.pc
      · exact hm.slots slot hold
  | _ => exact hm.slots slot hslot

theorem even_programStart : Even programStart.toNat := by decide

theorem aligned_powerOn (random : Random.Generator) : (powerOn random).Aligned where
  pc := even_programStart
  slots := by
    intro slot hslot
    have hzero : slot = 0 := by simpa [powerOn, CallStack.empty] using hslot
    simp [hzero]

/-- Only a jump or a call can take the machine to an odd address. -/
theorem Aligned.afterDeed_iff {m : Machine} (hm : m.Aligned) (deed : Deed) :
    (m.afterDeed deed).Aligned ↔ ∀ a ∈ Moment.target? ⟨m, deed⟩, Even a := by
  cases deed with
  | executed i =>
      rw [← even_nextPc_iff hm i]
      exact ⟨fun h => h.pc, fun hpc => ⟨hpc, hm.even_slots_effect i⟩⟩
  | failed fault | refused program | keyed keypad =>
      exact iff_of_true ⟨hm.pc, hm.slots⟩ (by simp [Moment.target?])
  | loaded program =>
      exact iff_of_true ⟨even_programStart, hm.slots⟩ (by simp [Moment.target?])
  | reset => exact iff_of_true (aligned_powerOn m.random) (by simp [Moment.target?])

/-! ## Program counters of faults -/

theorem step_pcOutOfBounds {m : Machine} (hm : m.Bounded) {p : UInt16}
    (h : m.step.fault = some (.pcOutOfBounds p)) : p = m.step.machine.pc ∧ 0xFFE < p.toNat := by
  rw [machine_step_of_fault h]
  cases faultCause_of_step hm h with
  | pcOutOfBounds hpc => exact ⟨rfl, hpc⟩

theorem run_pcOutOfBounds {m : Machine} (hm : m.Bounded) {n : Nat} {p : UInt16}
    (h : (m.run n).fault = some (.pcOutOfBounds p)) :
    p = (m.run n).machine.pc ∧ 0xFFE < p.toNat := by
  induction n generalizing m with
  | zero => cases h
  | succ n ih =>
      rw [run_succ_eq_andThen] at h ⊢
      cases hstep : m.step.fault with
      | some fault =>
          rw [Outcome.andThen_of_fault hstep] at h ⊢
          exact step_pcOutOfBounds hm h
      | none =>
          rw [Outcome.andThen_of_success hstep] at h ⊢
          exact ih hm.step h

/-- A call that ends where nothing can be fetched leaves the machine there. -/
theorem perform_pcOutOfBounds {m : Machine} (hm : m.Bounded) {call : Call} {p : UInt16}
    (h : (m.perform call).fault = some (.pcOutOfBounds p)) :
    p = (m.perform call).machine.pc ∧ 0xFFE < p.toNat := by
  cases call with
  | load program =>
      rw [perform, load] at h
      split at h
      · cases h
      · cases h
  | step => exact step_pcOutOfBounds hm h
  | run n => exact run_pcOutOfBounds hm h
  | reset | setKeys keys | keyDown key | keyUp key => cases h

end Machine

/-! ## Whole histories -/

theorem Path.aligned {first last : Machine} {ts : List Moment} (hpath : Path first ts last)
    (hfirst : first.Aligned) (hts : ∀ t ∈ ts, ∀ a ∈ t.target?, Even a) :
    (∀ t ∈ ts, t.before.Aligned) ∧ last.Aligned := by
  -- along the path: a deed that keeps the machine aligned leaves an aligned one to the next deed
  induction hpath with
  | nil m => exact ⟨List.forall_mem_nil _, hfirst⟩
  | @cons m last deed rest _ _ ih =>
      obtain ⟨hnow, hrest⟩ := List.forall_mem_cons.1 hts
      obtain ⟨hbefore, hlast⟩ := ih ((hfirst.afterDeed_iff deed).2 hnow) hrest
      exact ⟨List.forall_mem_cons.2 ⟨hfirst, hbefore⟩, hlast⟩

namespace Hardware

/-- As long as no executed jump or call leads to an odd address, the program counter and every stack
slot are even after each call of a history, and so they are before each of its steps: no fetch
straddles two words. A fetch beyond memory then fails with an even address behind the last word. -/
theorem pc_stays_even (random : Random.Generator) (history : List Call)
    (htargets : ∀ t ∈ (Machine.powerOn random).timeline history, ∀ a ∈ t.target?, Even a) :
    let after := (Machine.powerOn random).after
    (∀ earlier, earlier <+: history → (after earlier).Aligned ∧
      ∃ log, replay random earlier = some (ofMachine log (after earlier))) ∧
      (∀ t ∈ (Machine.powerOn random).timeline history,
        t.before.Aligned ∧ ¬t.before.Straddles) ∧
      ∀ earlier call p, earlier ++ [call] <+: history →
        ((after earlier).perform call).fault = some (.pcOutOfBounds p) →
          Even p.toNat ∧ 0x1000 ≤ p.toNat ∧ p ≠ 0xFFF := by
  intro after
  have hnew := Machine.aligned_powerOn random
  have hafter : ∀ earlier, earlier <+: history → (after earlier).Aligned := by
    rintro earlier ⟨later, rfl⟩
    rw [Machine.timeline_append] at htargets
    exact ((Machine.path_timeline _ earlier).aligned hnew
      fun t ht => htargets t (List.mem_append_left _ ht)).2
  refine ⟨fun earlier hinit => ⟨hafter earlier hinit, replay_eq random earlier⟩, ?_, ?_⟩
  · intro t ht
    have ht' : t.before.Aligned := ((Machine.path_timeline _ history).aligned hnew htargets).1 t ht
    exact ⟨ht', ht'.not_straddles⟩
  · intro earlier call p hinit hfault
    have hm : (after earlier).Reachable := ⟨random, earlier, rfl⟩
    obtain ⟨hp, hfar⟩ := Machine.perform_pcOutOfBounds hm.bounded hfault
    have hlast : (after (earlier ++ [call])).Aligned := hafter _ hinit
    simp only [after, Machine.after_append] at hlast
    have hpc : Even p.toNat := hp ▸ hlast.pc
    -- a fetch fails from 0xFFF on, which is odd itself
    have heven := Nat.even_iff.1 hpc
    refine ⟨hpc, by omega, ?_⟩
    rintro rfl
    exact absurd heven (by decide)

/-- A call, the return from it, and a jump by `V0` to the address 0x10FC, where there is nothing to
fetch. -/
theorem pc_stays_even_beyond_memory :
    let earlier : List Call :=
      [.load [0x22, 0x06, 0x60, 0xFE, 0xBF, 0xFE, 0x00, 0xEE], .keyDown 3]
    let m := (Machine.powerOn (.ofSeed 7)).after earlier
    (∀ t ∈ (Machine.powerOn (.ofSeed 7)).timeline (earlier ++ [.run 9]),
        ∀ a ∈ t.target?, Even a) ∧
      (m.run 9).fault = some (.pcOutOfBounds 0x10FC) ∧ Even (0x10FC : UInt16).toNat ∧
        (m.run 9).machine.Aligned := by
  intro earlier m
  have htargets : ∀ t ∈ (Machine.powerOn (.ofSeed 7)).timeline (earlier ++ [.run 9]),
      ∀ a ∈ t.target?, Even a := by
    decide +kernel
  have hfault : (m.run 9).fault = some (.pcOutOfBounds 0x10FC) := by decide +kernel
  obtain ⟨hcalls, -, hfaults⟩ := pc_stays_even (.ofSeed 7) (earlier ++ [.run 9]) htargets
  exact ⟨htargets, hfault, (hfaults earlier (.run 9) _ List.prefix_rfl hfault).1,
    (hcalls _ List.prefix_rfl).1⟩

end Hardware

end Chip8
