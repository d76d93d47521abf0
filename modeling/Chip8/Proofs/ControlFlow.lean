import Chip8.Proofs.Footprint
import Chip8.Proofs.Subroutines

/-!
# Control flow

Where a successful step goes on, as a number. The additions to the program counter are made on
words, and none of them wraps around on a machine that has been reached by calls.
-/

namespace Chip8

namespace Machine

/-! ## Skips -/

/-- The value of `Vx` is the number of a key, and this key is down. -/
def NamesKeyDown (m : Machine) (x : Fin 16) : Prop :=
  ∃ k : Fin 16, (m.v x).toNat = k ∧ m.keypad.keys.get k = true

/-- The instruction skips the one behind it. -/
def Skips (m : Machine) : Instruction → Prop
  | .skipIfEqualByte x kk => m.v x = kk
  | .skipIfNotEqualByte x kk => m.v x ≠ kk
  | .skipIfEqual x y => m.v x = m.v y
  | .skipIfNotEqual x y => m.v x ≠ m.v y
  | .skipIfKeyPressed x => m.NamesKeyDown x
  | .skipIfKeyNotPressed x => ¬m.NamesKeyDown x
  | _ => False

theorem isPressed_iff_namesKeyDown (m : Machine) (x : Fin 16) :
    m.keypad.isPressed (m.v x) = true ↔ m.NamesKeyDown x := by
  constructor
  · intro h
    have hlt := Keypad.lt_of_isPressed h
    have hk : UInt8.ofNat (m.v x).toNat = m.v x := UInt8.ofNat_toNat
    exact ⟨⟨_, hlt⟩, rfl, (m.keypad.isPressed_ofNat ⟨_, hlt⟩).symm.trans (hk.symm ▸ h)⟩
  · rintro ⟨k, hk, hdown⟩
    have hv : m.v x = UInt8.ofNat k := UInt8.toNat_inj.1 (hk.trans (Keypad.toNat_ofNat_key k).symm)
    rw [hv, Keypad.isPressed_ofNat, hdown]

theorem toNat_skipIf {m : Machine} (hpc : m.pc.toNat ≤ 0x10FE) (skip : Bool) :
    (m.skipIf skip).toNat = m.pc.toNat + if skip then 4 else 2 := by
  cases skip with
  | true => exact toNat_add_four hpc
  | false => exact toNat_add_two hpc

/-! ## One step -/

/-- The instruction leads from `m` to a machine that goes on at the right place. A return goes on
behind the call that it takes off the stack. -/
def Continues (m : Machine) (i : Instruction) (after : Machine) : Prop :=
  match i with
  | .jump addr | .call addr => after.pc.toNat = addr
  | .jumpOffset addr => after.pc.toNat = addr + (m.register 0).toNat
  | .ret => ∃ a, m.pending = after.pending ++ [a] ∧ after.pc.toNat = a.toNat + 2
  | .waitForKey _ =>
      (after.pc.toNat = m.pc.toNat ↔ ∀ k, m.keypad.keys.get k = false) ∧
        (after.pc.toNat = m.pc.toNat + 2 ↔ ∃ k, m.keypad.keys.get k = true)
  | i =>
      (after.pc.toNat = m.pc.toNat + 4 ↔ m.Skips i) ∧
        (after.pc.toNat = m.pc.toNat + 2 ↔ ¬m.Skips i)

theorem Continues.of_skips {m after : Machine} {i : Instruction} (h : m.Continues i after)
    (hskips : m.Skips i) : after.pc.toNat = m.pc.toNat + 4 := by
  cases i with
  | skipIfEqualByte x kk | skipIfNotEqualByte x kk | skipIfEqual x y | skipIfNotEqual x y
  | skipIfKeyPressed x | skipIfKeyNotPressed x => exact h.1.2 hskips
  | _ => exact hskips.elim

theorem forks_of_skipIf {m after : Machine} (hpc : m.pc.toNat ≤ 0x10FE) {skip : Bool} {p : Prop}
    (hafter : after.pc = m.skipIf skip) (hp : skip = true ↔ p) :
    (after.pc.toNat = m.pc.toNat + 4 ↔ p) ∧ (after.pc.toNat = m.pc.toNat + 2 ↔ ¬p) := by
  rw [hafter, toNat_skipIf hpc, ← hp]
  cases skip with
  | true => simp
  | false => simp

theorem waits_of_nextPc {m after : Machine} (hpc : m.pc.toNat ≤ 0x10FE)
    (hafter : after.pc = if m.keypad.lowest? = none then m.pc else m.pc + 2) :
    (after.pc.toNat = m.pc.toNat ↔ ∀ k, m.keypad.keys.get k = false) ∧
      (after.pc.toNat = m.pc.toNat + 2 ↔ ∃ k, m.keypad.keys.get k = true) := by
  have hnone : m.keypad.lowest? = none ↔ ∀ k, m.keypad.keys.get k = false :=
    m.keypad.lowest?_eq_none_iff
  have hsome : (∃ k, m.keypad.keys.get k = true) ↔ m.keypad.lowest? ≠ none := by
    rw [ne_eq, hnone, Classical.not_forall]
    exact exists_congr fun k => iff_of_eq (Bool.not_eq_false _).symm
  have htwo := toNat_add_two hpc
  rw [hsome, ← hnone, hafter]
  by_cases hkey : m.keypad.lowest? = none
  · rw [if_pos hkey]
    simp [hkey]
  · rw [if_neg hkey, htwo]
    simp [hkey]

theorem continues_advance {m : Machine} (hm : m.Bounded) {i : Instruction}
    (hdeed : m.Does (.executed i)) : m.Continues i (m.advance i) := by
  have hpc := hm.pc_le
  have hafter : (m.advance i).pc = m.nextPc i := rfl
  cases i with
  | jump addr | call addr => exact toNat_ofNat_addr addr
  | jumpOffset addr => exact toNat_jumpOffset addr (m.register 0)
  | ret => exact after_ret hm hdeed
  | waitForKey x => exact waits_of_nextPc hpc hafter
  | skipIfEqualByte x kk | skipIfNotEqualByte x kk | skipIfEqual x y | skipIfNotEqual x y =>
      exact forks_of_skipIf hpc hafter decide_eq_true_iff
  | skipIfKeyPressed x => exact forks_of_skipIf hpc hafter (m.isPressed_iff_namesKeyDown x)
  | skipIfKeyNotPressed x =>
      refine forks_of_skipIf hpc hafter ?_
      rw [Bool.not_eq_true', ← Bool.not_eq_true]
      exact not_congr (m.isPressed_iff_namesKeyDown x)
  | _ => exact @forks_of_skipIf _ _ hpc false _ hafter (by simp [Skips])

end Machine

namespace Hardware

/-- After any history, a step that succeeds goes on where its instruction says, and no addition on
the way there wraps around. The hardware takes the same step. -/
theorem step_continues (random : Random.Generator) (history : List Call)
    (hok : ((Machine.powerOn random).after history).step.fault = none) :
    let m := (Machine.powerOn random).after history
    (∃ i, m.next? = .ok i ∧ m.Continues i m.step.machine) ∧
      ∃ log h, replay random history = some h ∧ h = ofMachine log m ∧
        step h = .done () (ofMachine (log ++ m.step.log) m.step.machine) := by
  intro m
  have hm : m.Reachable := ⟨random, history, rfl⟩
  refine ⟨?_, replay_step_of_success random history hok⟩
  have hsuccess : m.step.fault = none := hok
  rcases m.step_cases with ⟨fault, log, hstep⟩ | ⟨i, log, hnext, hfault, hstep⟩
  · rw [hstep] at hsuccess
    cases hsuccess
  · rw [hstep]
    exact ⟨i, hnext, Machine.continues_advance hm.bounded (.executed hnext hfault)⟩

/-- With every key down, a step that skips unless a key is down still skips if 16 is the value of
its register. -/
theorem step_continues_no_key :
    let history : List Call :=
      [.setKeys (Vector.replicate 16 true), .load [0x63, 0x10, 0xE3, 0xA1], .step]
    let m := (Machine.powerOn (.ofSeed 7)).after history
    m.step.fault = none ∧ m.next? = .ok (.skipIfKeyNotPressed 3) ∧ m.pc.toNat = 0x202 ∧
      ¬m.NamesKeyDown 3 ∧ m.step.machine.pc.toNat = 0x206 := by
  intro history m
  have hstate : m.step.fault = none ∧ m.next? = .ok (.skipIfKeyNotPressed 3) ∧
      m.pc.toNat = 0x202 ∧ (m.v 3).toNat = 16 := by
    decide +kernel
  obtain ⟨hok, hnext, hpc, hv⟩ := hstate
  have hkey : ¬m.NamesKeyDown 3 := by
    rintro ⟨k, hk, -⟩
    omega
  have hstep : ∃ i, m.next? = .ok i ∧ m.Continues i m.step.machine :=
    (step_continues (.ofSeed 7) history hok).1
  clear_value m
  obtain ⟨i, hi, hcontinues⟩ := hstep
  obtain rfl : i = .skipIfKeyNotPressed 3 := Except.ok.inj (hi.symm.trans hnext)
  have hskip : m.step.machine.pc.toNat = m.pc.toNat + 4 := hcontinues.of_skips hkey
  exact ⟨hok, hnext, hpc, hkey, by rw [hskip, hpc]⟩

end Hardware

end Chip8
