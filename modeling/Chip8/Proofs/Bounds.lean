import Chip8.Proofs.Reachable

/-!
# Bounds on the stack and the program counter

The bounds carry each other: an address that is pushed has passed the fetch, a return goes two
bytes behind such an address, and a jump goes at most 255 bytes behind a twelve-bit one.
-/

namespace Chip8

namespace CallStack

theorem mem_slots_push {s : CallStack} {a slot : UInt16} (h : slot ∈ (s.push a).slots) :
    slot = a ∨ slot ∈ s.slots := by
  obtain ⟨k, hk, rfl⟩ := Vector.getElem_of_mem h
  simp only [push, Vector.getElem_setIfInBounds]
  split
  · exact Or.inl rfl
  · exact Or.inr (Vector.getElem_mem hk)

theorem top_eq_zero_or_mem (s : CallStack) : s.top = 0 ∨ s.top ∈ s.slots := by
  by_cases h : s.depth - 1 < 16
  · have htop : s.top = s.slots[s.depth - 1] := by simp [top, h]
    exact Or.inr (htop ▸ Vector.getElem_mem h)
  · exact Or.inl (by simp [top, h])

end CallStack

namespace Machine

structure Bounded (m : Machine) : Prop where
  depth_le : m.stack.depth ≤ 16
  slot_le : ∀ slot ∈ m.stack.slots, slot.toNat ≤ 0xFFE
  pc_le : m.pc.toNat ≤ 0x10FE
  soundTimer_of_tone : m.tone = true → m.soundTimer = 0

theorem bounded_powerOn (random : Random.Generator) : (powerOn random).Bounded where
  depth_le := Nat.zero_le 16
  slot_le := by
    intro slot hslot
    have hzero : slot = 0 := by simpa [powerOn, CallStack.empty] using hslot
    simp [hzero]
  pc_le := by simp [powerOn]
  soundTimer_of_tone := fun _ => rfl

namespace Bounded

variable {m : Machine}

theorem top_le (hm : m.Bounded) : m.stack.top.toNat ≤ 0xFFE := by
  rcases m.stack.top_eq_zero_or_mem with h | h
  · simp [h]
  · exact hm.slot_le _ h

theorem load (hm : m.Bounded) (program : List UInt8) : (m.load program).machine.Bounded := by
  unfold Machine.load
  split
  · exact hm
  · exact ⟨hm.depth_le, hm.slot_le, by simp, hm.soundTimer_of_tone⟩

theorem keypad (hm : m.Bounded) (keypad : Keypad) : { m with keypad := keypad }.Bounded :=
  ⟨hm.depth_le, hm.slot_le, hm.pc_le, hm.soundTimer_of_tone⟩

end Bounded

/-! ## One instruction -/

theorem toNat_add_of_lt {a b : UInt16} (h : a.toNat + b.toNat < 65536) :
    (a + b).toNat = a.toNat + b.toNat := by
  rw [UInt16.toNat_add, Nat.mod_eq_of_lt h]

theorem toNat_add_two {a : UInt16} (h : a.toNat ≤ 0x10FE) : (a + 2).toNat = a.toNat + 2 :=
  toNat_add_of_lt (Nat.add_lt_of_lt_sub (Nat.lt_of_le_of_lt h (by decide)))

theorem toNat_add_four {a : UInt16} (h : a.toNat ≤ 0x10FE) : (a + 4).toNat = a.toNat + 4 :=
  toNat_add_of_lt (Nat.add_lt_of_lt_sub (Nat.lt_of_le_of_lt h (by decide)))

theorem toNat_ofNat_addr (addr : Fin 4096) : (UInt16.ofNat addr).toNat = addr :=
  UInt16.toNat_ofNat_of_lt' (by have := addr.isLt; simp only [UInt16.size]; omega)

theorem toNat_jumpOffset (addr : Fin 4096) (v : UInt8) :
    (UInt16.ofNat addr + v.toUInt16).toNat = addr + v.toNat := by
  have haddr := addr.isLt
  have hv := v.toNat_lt
  rw [toNat_add_of_lt, toNat_ofNat_addr, UInt8.toNat_toUInt16]
  rw [toNat_ofNat_addr, UInt8.toNat_toUInt16]
  omega

theorem toNat_skipIf_le {m : Machine} (hpc : m.pc.toNat ≤ 0x10FE) (skip : Bool) :
    (m.skipIf skip).toNat ≤ m.pc.toNat + 4 := by
  cases skip with
  | true => exact Nat.le_of_eq (toNat_add_four hpc)
  | false => exact Nat.le_trans (Nat.le_of_eq (toNat_add_two hpc)) (by omega)

theorem Bounded.nextPc_le {m : Machine} (hm : m.Bounded) (hpc : m.pc.toNat ≤ 0xFFE)
    (i : Instruction) : (m.nextPc i).toNat ≤ 0x10FE := by
  have hnext : (m.pc + 2).toNat ≤ 0x10FE := by
    rw [toNat_add_two hm.pc_le]
    omega
  have hskip : ∀ skip, (m.skipIf skip).toNat ≤ 0x10FE := fun skip =>
    Nat.le_trans (toNat_skipIf_le hm.pc_le skip) (by omega)
  cases i with
  | ret =>
      have htop := hm.top_le
      simp only [nextPc, Instruction.ofNat_size]
      rw [toNat_add_two (by omega)]
      omega
  | jump addr | call addr =>
      have haddr := addr.isLt
      simp only [nextPc, toNat_ofNat_addr]
      omega
  | jumpOffset addr =>
      have haddr := addr.isLt
      have hv := (m.register 0).toNat_lt
      simp only [nextPc, toNat_jumpOffset]
      omega
  | skipIfEqualByte x kk | skipIfNotEqualByte x kk | skipIfEqual x y | skipIfNotEqual x y
  | skipIfKeyPressed x | skipIfKeyNotPressed x => exact hskip _
  | waitForKey x =>
      simp only [nextPc]
      split
      · exact hm.pc_le
      · exact hnext
  | _ => exact hnext

/-- A return pops the stack, a call pushes its own address, and nothing else touches it. -/
theorem stack_effect (m : Machine) (i : Instruction) :
    (m.effect i).stack =
      match i with
      | .ret => m.stack.pop
      | .call _ => m.stack.push m.pc
      | _ => m.stack := by
  cases i with
  | waitForKey x => rw [effect_waitForKey]
  | _ => rfl

theorem depth_effect_le {m : Machine} (hdepth : m.stack.depth ≤ 16) {i : Instruction}
    (hi : m.fault? i = none) : (m.effect i).stack.depth ≤ 16 := by
  rw [stack_effect]
  cases i with
  | ret => exact Nat.le_trans (Nat.sub_le _ _) hdepth
  | call addr =>
      have hroom : ¬16 ≤ m.stack.depth := by
        intro hfull
        simp [fault?, hfull] at hi
      exact Nat.lt_of_not_le hroom
  | _ => exact hdepth

theorem depth_step_le {m : Machine} (hdepth : m.stack.depth ≤ 16) :
    m.step.machine.stack.depth ≤ 16 := by
  rcases m.step_cases with ⟨fault, log, hstep⟩ | ⟨i, log, -, hi, hstep⟩
  · rw [hstep]
    exact hdepth
  · rw [hstep]
    exact depth_effect_le hdepth hi

theorem Bounded.advance {m : Machine} (hm : m.Bounded) (hpc : m.pc.toNat ≤ 0xFFE)
    {i : Instruction} (hi : m.fault? i = none) : (m.advance i).Bounded where
  depth_le := depth_effect_le hm.depth_le hi
  slot_le := by
    intro slot hslot
    change slot ∈ (m.effect i).stack.slots at hslot
    rw [stack_effect] at hslot
    cases i with
    | call addr =>
        rcases CallStack.mem_slots_push hslot with rfl | h
        · exact hpc
        · exact hm.slot_le slot h
    | _ => exact hm.slot_le slot hslot
  pc_le := hm.nextPc_le hpc i
  soundTimer_of_tone := by
    intro htone
    have hone : (m.effect i).soundTimer = 1 := by simpa [Machine.advance, tick] using htone
    simp [Machine.advance, tick, hone, countDown]

theorem Bounded.step {m : Machine} (hm : m.Bounded) : m.step.machine.Bounded := by
  rcases m.step_cases with ⟨fault, log, hstep⟩ | ⟨i, log, hnext, hi, hstep⟩
  · rw [hstep]
    exact ⟨hm.depth_le, hm.slot_le, hm.pc_le, fun h => nomatch h⟩
  · rw [hstep]
    exact hm.advance (pc_le_of_next?_eq_ok hnext) hi

theorem Reachable.bounded {m : Machine} (hm : m.Reachable) : m.Bounded :=
  hm.invariant bounded_powerOn (fun _ program h => h.load program) (fun _ h => h.step)
    (fun _ keypad h => h.keypad keypad)

end Machine

end Chip8
