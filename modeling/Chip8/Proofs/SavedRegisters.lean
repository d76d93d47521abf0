import Chip8.Proofs.Pairs

/-!
# Saving and restoring registers

A store of `V0` to `Vx` and a load of them go through the same bytes, so a load brings back what a
store has saved there, whatever has happened in between to the registers and to the rest of memory.
The other way round, what was just loaded is stored where it came from.
-/

namespace Chip8

theorem Path.read_eq_of_not_writes {first last : Machine} {ts : List Moment}
    (hpath : Path first ts last) {a : Nat} (ha : a < 4096)
    (hts : ∀ t ∈ ts, ∀ b, ¬t.Writes a b) : last.memory.read a = first.memory.read a := by
  induction hpath with
  | nil m => rfl
  | @cons m last deed rest _ _ ih =>
      obtain ⟨hnow, hrest⟩ := List.forall_mem_cons.1 hts
      have hkept : (m.afterDeed deed).memory.read a = m.memory.read a :=
        (Moment.read_after ⟨m, deed⟩ ha).2 hnow
      exact (ih hrest).trans hkept

namespace Machine

/-- The bytes of this memory from the index register on are the values of `V0` to `Vx`. -/
def Saves (m : Machine) (x : Fin 16) (memory : Memory) : Prop :=
  ∀ j ≤ x, memory.read (m.index.toNat + j) = m.v j

/-- A load of `V0` to `Vy` has brought back the values that these have in `saved`. -/
structure BringsBack (n saved : Machine) (y : Fin 16) (after : Machine) : Prop where
  registers : ∀ j ≤ y, after.v j = saved.v j
  others : ∀ j, y < j → after.v j = n.v j
  index : after.index = n.index
  memory : after.memory = n.memory

theorem saves_storeRegisters {m : Machine} {x : Fin 16} (hfits : m.index.toNat + x ≤ 0xFFF) :
    m.Saves x (m.advance (.storeRegisters x)).memory := by
  intro j hj
  have ha : m.index.toNat + j < 4096 := by omega
  exact (Moment.read_after ⟨m, .executed (.storeRegisters x)⟩ ha).1 _ (.register rfl hj rfl)

theorem saves_loadRegisters (m : Machine) (x : Fin 16) :
    (m.executed (.loadRegisters x)).Saves x m.memory := by
  intro j hj
  exact ((m.v_loadRegisters x j).trans (if_pos hj)).symm

theorem Saves.after {saved m : Machine} {x : Fin 16} (h : saved.Saves x m.memory)
    (hfits : saved.index.toNat + x ≤ 0xFFF) {calls : List Call}
    (hkept : ∀ t ∈ m.timeline calls, ∀ a, saved.index.toNat ≤ a → a ≤ saved.index.toNat + x →
      ∀ b, ¬t.Writes a b) :
    saved.Saves x (m.after calls).memory := by
  intro j hj
  have hin : saved.index.toNat + j ≤ saved.index.toNat + x := Nat.add_le_add_left hj _
  rw [← h j hj]
  exact (m.path_timeline calls).read_eq_of_not_writes (by omega) fun t ht =>
    hkept t ht _ (Nat.le_add_right _ _) hin

theorem Saves.bringsBack {saved n : Machine} {x y : Fin 16} (h : saved.Saves x n.memory)
    (hindex : n.index = saved.index) (hy : y ≤ x) :
    n.BringsBack saved y (n.advance (.loadRegisters y)) where
  registers j hj := by
    have hloaded : (n.advance (.loadRegisters y)).v j = n.memory.read (n.index.toNat + j) :=
      (n.v_loadRegisters y j).trans (if_pos hj)
    rw [hloaded, hindex]
    exact h j (Nat.le_trans hj hy)
  others j hj := (n.v_loadRegisters y j).trans (if_neg (Fin.not_le.2 hj))
  index := rfl
  memory := rfl

/-- A store of values that are in memory already leaves every byte as it is. -/
theorem Saves.memory_executed {m : Machine} {x : Fin 16} (h : m.Saves x m.memory) :
    (m.executed (.storeRegisters x)).memory = m.memory := by
  apply Memory.ext_read
  intro a ha
  obtain ⟨hwritten, hkept⟩ := Moment.read_after ⟨m, .executed (.storeRegisters x)⟩ ha
  by_cases hwrites : ∃ b, Moment.Writes ⟨m, .executed (.storeRegisters x)⟩ a b
  · obtain ⟨b, hb⟩ := hwrites
    refine (hwritten b hb).trans ?_
    cases hb with
    | register hdeed hk hk' =>
        cases hdeed
        exact hk' ▸ (h _ hk).symm
    | reset hdeed | program hdeed | digit hdeed => cases hdeed
  · exact hkept fun b hb => hwrites ⟨b, hb⟩

/-- After a store of `V0` to `Vx` at some address, a load of `V0` to `Vy` at the same address brings
back what they were at the store, after any calls that write nothing to these bytes. And a store
right after a load from the same address changes no byte of memory. -/
theorem saved_registers_come_back (m : Machine) (x : Fin 16) :
    (m.next? = .ok (.storeRegisters x) → m.index.toNat + x ≤ 0xFFF →
      m.step.fault = none ∧
        ∀ (calls : List Call) (y : Fin 16),
          (∀ t ∈ m.step.machine.timeline calls, ∀ a, m.index.toNat ≤ a → a ≤ m.index.toNat + x →
            ∀ b, ¬t.Writes a b) →
          let n := m.step.machine.after calls
          n.next? = .ok (.loadRegisters y) → n.index = m.index → y ≤ x →
            n.step.fault = none ∧ n.BringsBack m y n.step.machine) ∧
      (m.fault? (.loadRegisters x) = none →
        let after := (m.executed (.loadRegisters x)).executed (.storeRegisters x)
        m.InARow (.loadRegisters x) (.storeRegisters x) after ∧ after.memory = m.memory) := by
  constructor
  · intro hnext hfits
    have hstore : m.fault? (.storeRegisters x) = none :=
      (m.rangeFault?_eq_none_iff _).2 (Or.inr (by omega))
    refine ⟨(step_fault_of_next? hnext).trans hstore, ?_⟩
    intro calls y hkept n hload hindex hy
    rw [machine_step_of_executed hnext hstore] at hkept
    have hsaved : m.Saves x n.memory := by
      have hnow := saves_storeRegisters hfits
      have hlater := hnow.after hfits hkept
      rwa [← machine_step_of_executed hnext hstore] at hlater
    have hroom : n.fault? (.loadRegisters y) = none := by
      refine (n.rangeFault?_eq_none_iff _).2 (Or.inr ?_)
      rw [hindex]
      omega
    refine ⟨(step_fault_of_next? hload).trans hroom, ?_⟩
    rw [machine_step_of_executed hload hroom]
    exact hsaved.bringsBack hindex hy
  · intro hload after
    exact ⟨inARow hload hload rfl rfl rfl, (m.saves_loadRegisters x).memory_executed⟩

/-- `V0` to `V2` are saved in the last three bytes of memory and the first two of them brought back,
after other values, another index and a key. -/
theorem saved_registers_come_back_prefix :
    let program := [0x60, 0x07, 0x61, 0x08, 0xAF, 0xFD, 0xF2, 0x55, 0x60, 0x00, 0x62, 0x09, 0xA3,
      0x00, 0xAF, 0xFD, 0xF1, 0x65]
    let m := (powerOn (.ofSeed 7)).after [.load program, .run 3]
    let n := m.step.machine.after [.step, .keyDown 5, .run 3]
    m.next? = .ok (.storeRegisters 2) ∧ n.next? = .ok (.loadRegisters 1) ∧ n.v 0 = 0 ∧
      n.step.fault = none ∧ n.step.machine.v 0 = 7 ∧ n.step.machine.v 1 = 8 ∧
      n.step.machine.v 2 = 9 ∧
      ((m.executed (.loadRegisters 2)).executed (.storeRegisters 2)).memory = m.memory := by
  intro program m n
  have hsave : m.next? = .ok (.storeRegisters 2) ∧ m.index.toNat + (2 : Fin 16) ≤ 0xFFF ∧
      m.v 0 = 7 ∧ m.v 1 = 8 ∧ m.fault? (.loadRegisters 2) = none := by
    decide +kernel
  have hload : n.next? = .ok (.loadRegisters 1) ∧ n.index = m.index ∧ n.v 0 = 0 ∧ n.v 2 = 9 := by
    decide +kernel
  have hquiet : ∀ t ∈ m.step.machine.timeline [.step, .keyDown 5, .run 3],
      t.deed.stores = false := by
    decide +kernel
  obtain ⟨hnext, hfits, hzero, hone, hroom⟩ := hsave
  obtain ⟨hnext', hindex, hold, htwo⟩ := hload
  obtain ⟨hrestore, hstore⟩ := saved_registers_come_back m 2
  obtain ⟨hok, hback⟩ := (hrestore hnext hfits).2 _ 1
    (fun t ht a _ _ b hb => Bool.false_ne_true ((hquiet t ht).symm.trans hb.stores))
    hnext' hindex (by decide)
  exact ⟨hnext, hnext', hold, hok, (hback.registers 0 (by decide)).trans hzero,
    (hback.registers 1 (by decide)).trans hone, (hback.others 2 (by decide)).trans htwo,
    (hstore hroom).2⟩

end Machine

end Chip8
