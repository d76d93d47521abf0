import Chip8.Proofs.Assembly
import Chip8.Proofs.FaultCauses

/-!
# Sums in the index register

Adding a register to the index register is done on 16-bit words, and VF tells whether the word that
comes out is outside of memory. Such an address is of no use: every access to it fails. But a sum
that does not fit into a word wraps around to the foot of memory, and VF is 0 then. Many additions
in a row get there.
-/

namespace Chip8

/-- With this index register every access to memory fails before it has read or written a byte: how
it ends is the same for every memory, and it leaves the hardware as it was. -/
structure Unaddressable (index : UInt16) : Prop where
  faults : ∀ (m : Machine) (i : Instruction) (len : Nat), m.index = index →
    i.accessLength? = some len → 0 < len → m.next? = .ok i →
    m.step.fault = some (.memoryOutOfBounds index.toNat) ∧
      m.step.machine = { m with tone := false }
  untouched : ∀ (h : Hardware) (i : Instruction) (len : Nat), h.index = index →
    i.accessLength? = some len → 0 < len →
    Hardware.execute i h = .fault (.memoryOutOfBounds index.toNat) h

namespace Hardware

theorem indexRange_of_le {h : Hardware} (hindex : 4096 ≤ h.index.toNat) {len : Nat}
    (hpos : 0 < len) (hlen : len ≤ 16) :
    indexRange len h = .fault (.memoryOutOfBounds h.index.toNat) h := by
  have hlt := h.index.toNat_lt
  have hfits : h.index.toNat + len < sizeValues := lt_sizeValues (by omega)
  have hout : 4096 < h.index.toNat + len := by omega
  simp only [indexRange, bind_apply, look_apply, if_apply, sum_apply hfits, raise_apply,
    if_pos hpos, if_pos hout, Nat.max_eq_left hindex]

theorem execute_of_le {h : Hardware} (hindex : 4096 ≤ h.index.toNat) {i : Instruction} {len : Nat}
    (hlen : i.accessLength? = some len) (hpos : 0 < len) :
    execute i h = .fault (.memoryOutOfBounds h.index.toNat) h := by
  cases i with
  | draw x y n =>
      obtain rfl := Option.some.inj hlen
      have hrange := indexRange_of_le hindex hpos (Nat.le_of_lt n.isLt)
      simp only [execute, perform, drawSprite, bind_apply, register_apply h x.isLt,
        register_apply h y.isLt, hrange]
  | storeBcd x =>
      have hrange : indexRange 3 h = .fault (.memoryOutOfBounds h.index.toNat) h :=
        indexRange_of_le hindex (by decide) (by decide)
      simp only [execute, perform, storeBcd, bind_apply, register_apply h x.isLt, hrange]
  | storeRegisters x | loadRegisters x =>
      have hrange := indexRange_of_le hindex x.val.succ_pos x.isLt
      have hfits : x.val + 1 < sizeValues := lt_sizeValues (by omega)
      simp only [execute, perform, storeRegisters, loadRegisters, bind_apply, sum_apply hfits,
        hrange]
  | _ => cases hlen

end Hardware

theorem unaddressable_of_lt {index : UInt16} (hindex : 0xFFF < index.toNat) :
    Unaddressable index where
  faults m i len hm hlen hpos hnext := by
    subst hm
    have hleast : IsLeast (m.outside len) m.index.toNat :=
      (m.isLeast_outside_iff len _).2 ⟨⟨hpos, by omega⟩, (Nat.max_eq_left hindex).symm⟩
    have hfault : m.step.fault = some (.memoryOutOfBounds m.index.toNat) :=
      (Machine.step_fault_of_next? hnext).trans
        ((m.fault?_eq_some_iff i _).2 (.inr (.inr ⟨len, _, hlen, hleast, rfl⟩)))
    exact ⟨hfault, Machine.machine_step_of_fault hfault⟩
  untouched h i len hh hlen hpos := by
    subst hh
    exact Hardware.execute_of_le hindex hlen hpos

namespace Machine

/-! ## One addition -/

/-- What an addition of `Vx` to the index register leaves. -/
structure AddsIndex (m : Machine) (x : Fin 16) (after : Machine) : Prop where
  index : after.index.toNat = (m.index.toNat + (m.v x).toNat) % 65536
  flag_of_lt : 0xFFF < after.index.toNat → after.v flagRegister = 1
  flag_of_le : after.index.toNat ≤ 0xFFF → after.v flagRegister = 0
  registers : ∀ j, j ≠ flagRegister → after.v j = m.v j
  memory : after.memory = m.memory
  pc : after.pc = m.pc + 2

theorem v_advance_addIndex (m : Machine) (x j : Fin 16) :
    (m.advance (.addIndex x)).v j =
      if j = flagRegister then flag (0xFFF < (m.advance (.addIndex x)).index) else m.v j :=
  m.v_setV flagRegister _ j

theorem addsIndex_advance (m : Machine) (x : Fin 16) :
    m.AddsIndex x (m.advance (.addIndex x)) where
  index := by
    change (m.index + (m.v x).toUInt16).toNat = _
    rw [UInt16.toNat_add, UInt8.toNat_toUInt16]
  flag_of_lt h := by
    have hlt : (0xFFF : UInt16) < (m.advance (.addIndex x)).index := UInt16.lt_iff_toNat_lt.2 h
    rw [v_advance_addIndex, if_pos rfl, decide_eq_true hlt, flag_true]
  flag_of_le h := by
    have hle : ¬(0xFFF : UInt16) < (m.advance (.addIndex x)).index := fun hlt =>
      Nat.not_lt.2 h (UInt16.lt_iff_toNat_lt.1 hlt)
    rw [v_advance_addIndex, if_pos rfl, decide_eq_false hle, flag_false]
  registers j hj := by rw [v_advance_addIndex, if_neg hj]
  memory := rfl
  pc := rfl

theorem step_addIndex {m : Machine} {x : Fin 16} (hnext : m.next? = .ok (.addIndex x)) :
    m.step.fault = none ∧ m.AddsIndex x m.step.machine := by
  refine ⟨step_fault_of_next? hnext, ?_⟩
  rw [machine_step_of_executed hnext rfl]
  exact m.addsIndex_advance x

/-! ## Many additions -/

section rows

variable {m : Machine} {unread x : Fin 16} {rest : List (Fin 16 × Instruction)}

theorem step_row (hpc : m.pc.toNat + 2 ≤ 4096)
    (hholds : m.memory.Holds m.pc.toNat ((unread, .addIndex x) :: rest)) :
    m.next? = .ok (.addIndex x) ∧ m.step.fault = none ∧ m.AddsIndex x m.step.machine ∧
      m.step.machine.pc.toNat = m.pc.toNat + 2 ∧
      m.step.machine.memory.Holds (m.pc.toNat + 2) rest := by
  have hnext : m.next? = .ok (.addIndex x) := next?_of_word hpc hholds.1
  obtain ⟨hok, hadds⟩ := step_addIndex hnext
  refine ⟨hnext, hok, hadds, ?_, ?_⟩
  · rw [hadds.pc, toNat_add_two (by omega)]
  · rw [hadds.memory]
    exact hholds.2

/-- Through a row of equal additions, the index register takes the multiples of `Vx` on its way
around the words, and nothing stops it where it leaves memory. -/
theorem run_row (hx : x ≠ flagRegister) {n : Nat}
    (hend : m.pc.toNat + 2 * (n + rest.length) ≤ 4096)
    (hholds : m.memory.Holds m.pc.toNat (.replicate n (unread, .addIndex x) ++ rest)) :
    (m.run n).fault = none ∧
      (m.run n).machine.index.toNat = (m.index.toNat + n * (m.v x).toNat) % 65536 ∧
      (m.run n).machine.v x = m.v x ∧ (m.run n).machine.pc.toNat = m.pc.toNat + 2 * n ∧
      (m.run n).machine.memory.Holds (m.pc.toNat + 2 * n) rest := by
  induction n generalizing m with
  | zero =>
      have hindex : m.index.toNat % 65536 = m.index.toNat := Nat.mod_eq_of_lt m.index.toNat_lt
      rw [Nat.zero_mul, Nat.add_zero, hindex]
      exact ⟨rfl, rfl, rfl, rfl, hholds⟩
  | succ n ih =>
      obtain ⟨-, hok, hadds, hpc, hrest⟩ := step_row (by omega) hholds
      have hv : m.step.machine.v x = m.v x := hadds.registers x hx
      have hrun : m.run (n + 1) = (m.step.machine.run n).after m.step.log := by
        rw [run_succ, hok]
      rw [← hpc] at hrest
      -- one multiple of `Vx` and two bytes have been added by the step, the others by the rest
      obtain ⟨hfault, hindex, hvx, hpc', hholds'⟩ := ih (by omega) hrest
      have hsum : m.index.toNat + (m.v x).toNat + n * (m.v x).toNat =
          m.index.toNat + (n + 1) * (m.v x).toNat := by
        rw [Nat.succ_mul]
        omega
      have haddress : m.step.machine.pc.toNat + 2 * n = m.pc.toNat + 2 * (n + 1) := by omega
      rw [hadds.index, hv, Nat.mod_add_mod, hsum] at hindex
      rw [haddress] at hpc' hholds'
      rw [hrun]
      exact ⟨hfault, hindex, hvx.trans hv, hpc', hholds'⟩

theorem after_load_row (start : Machine) (hx : x ≠ flagRegister) {n : Nat}
    (hfits : n + rest.length ≤ 1792) :
    let m := start.after
      [.load (Instruction.assemble (.replicate n (unread, .addIndex x) ++ rest)), .run n]
    m.index.toNat = (start.index.toNat + n * (start.v x).toNat) % 65536 ∧ m.v x = start.v x ∧
      m.pc.toNat = 0x200 + 2 * n ∧ m.memory.Holds (0x200 + 2 * n) rest := by
  have hlength : (List.replicate n (unread, Instruction.addIndex x) ++ rest).length =
      n + rest.length := by
    rw [List.length_append, List.length_replicate]
  obtain ⟨-, hloaded⟩ := load_assemble start (Nat.le_trans (Nat.le_of_eq hlength) hfits)
  rw [after_cons, after_cons, after_nil, perform, perform, hloaded]
  refine (run_row hx ?_ (Memory.holds_store _ ?_)).2
  · change 0x200 + 2 * (n + rest.length) ≤ 4096
    omega
  · omega

end rows

end Machine

namespace Hardware

/-- VF tells whether the sum, as the index register holds it, is outside of memory, and if it is,
nothing can be accessed there. The exact sum `s` is held if it fits into 16 bits. -/
theorem addIndex_flags_unaddressable (random : Random.Generator) (history : List Call)
    {x : Fin 16} (hnext : ((Machine.powerOn random).after history).next? = .ok (.addIndex x)) :
    let m := (Machine.powerOn random).after history
    let s := m.index.toNat + (m.v x).toNat
    let after := m.step.machine
    m.step.fault = none ∧ after.index.toNat = s % 65536 ∧
      (0xFFF < s % 65536 →
        after.v Machine.flagRegister = 1 ∧ Unaddressable after.index) ∧
      (s % 65536 ≤ 0xFFF → after.v Machine.flagRegister = 0) ∧
      ∃ log h, replay random history = some h ∧ h = ofMachine log m ∧
        step h = .done () (ofMachine (log ++ m.step.log) after) := by
  intro m s after
  obtain ⟨hok, hadds⟩ := Machine.step_addIndex hnext
  have hindex : after.index.toNat = s % 65536 := hadds.index
  refine ⟨hok, hindex, ?_, ?_, replay_step_of_success random history hok⟩
  · intro hlt
    rw [← hindex] at hlt
    exact ⟨hadds.flag_of_lt hlt, unaddressable_of_lt hlt⟩
  · intro hle
    rw [← hindex] at hle
    exact hadds.flag_of_le hle

/-- From the last but one byte of memory, adding 3 leads to the address 0x1001, where a store of
`V0` fails. -/
theorem addIndex_flags_unaddressable_store :
    let history : List Call := [.load [0xAF, 0xFE, 0x60, 0x03, 0xF0, 0x1E, 0xF0, 0x55], .run 2]
    let m := (Machine.powerOn (.ofSeed 7)).after history
    let after := m.step.machine
    m.next? = .ok (.addIndex 0) ∧ after.index.toNat = 0x1001 ∧
      after.v Machine.flagRegister = 1 ∧ after.next? = .ok (.storeRegisters 0) ∧
      after.step.fault = some (.memoryOutOfBounds 0x1001) ∧
      after.step.machine = { after with tone := false } := by
  intro history m after
  have hstate : m.next? = .ok (.addIndex 0) ∧ m.index.toNat + (m.v 0).toNat = 0x1001 ∧
      after.next? = .ok (.storeRegisters 0) := by
    decide +kernel
  obtain ⟨hnext, hsum, hstore⟩ := hstate
  clear_value history
  obtain ⟨-, hindex, hflag, -⟩ := addIndex_flags_unaddressable (.ofSeed 7) history hnext
  have hindex' : after.index.toNat = 0x1001 := hindex.trans (congrArg (· % 65536) hsum)
  obtain ⟨hone, hoverrun⟩ := hflag (by rw [hsum]; decide)
  obtain ⟨hfault, hmachine⟩ := hoverrun.faults after _ 1 rfl rfl (by decide) hstore
  rw [hindex'] at hfault
  exact ⟨hnext, hindex', hone, hstore, hfault, hmachine⟩

/-- The sum of 65295 and 255 wraps around. So VF is cleared although the sum lies outside of memory,
and a store through the index register, which is 14 then, does not fail. -/
theorem addIndex_wraps_unflagged :
    let start := (Machine.powerOn (.ofSeed 7)).after [.load [0xAF, 0xFF, 0x60, 0xFF], .run 2]
    let program : List (Fin 16 × Instruction) :=
      .replicate 240 (0, .addIndex 0) ++ [(0, .addIndex 0), (0, .storeRegisters 0)]
    let m := start.after [.load (Instruction.assemble program), .run 240]
    m.Reachable ∧ m.next? = .ok (.addIndex 0) ∧ 0xFFF < m.index.toNat + (m.v 0).toNat ∧
      m.step.fault = none ∧ m.step.machine.v Machine.flagRegister = 0 ∧
      m.step.machine.next? = .ok (.storeRegisters 0) ∧ m.step.machine.step.fault = none := by
  intro start program m
  have hm : m.Reachable := Machine.Reachable.after ⟨.ofSeed 7, _, rfl⟩ _
  have hstart : start.index.toNat = 0xFFF ∧ (start.v 0).toNat = 0xFF := by decide +kernel
  clear_value start
  have hrow : m.index.toNat = (start.index.toNat + 240 * (start.v 0).toNat) % 65536 ∧
      m.v 0 = start.v 0 ∧ m.pc.toNat = 0x200 + 2 * 240 ∧
        m.memory.Holds (0x200 + 2 * 240) [(0, .addIndex 0), (0, .storeRegisters 0)] :=
    Machine.after_load_row start (by decide) (by decide)
  clear_value m
  obtain ⟨hindex, hv, hpc, hholds⟩ := hrow
  have hwrap : m.index.toNat = 65295 ∧ (m.v 0).toNat = 255 := by
    rw [hindex, hv, hstart.1, hstart.2]
    decide
  rw [← hpc] at hholds
  obtain ⟨hnext, hok, hadds, hpc', hlast⟩ := Machine.step_row (by omega) hholds
  have hindex' : m.step.machine.index.toNat = 14 := by
    rw [hadds.index, hwrap.1, hwrap.2]
  have hstore : m.step.machine.next? = .ok (.storeRegisters 0) := by
    rw [← hpc'] at hlast
    exact Machine.next?_of_word (by omega) hlast.1
  refine ⟨hm, hnext, by omega, hok, hadds.flag_of_le (by omega), hstore, ?_⟩
  rw [Machine.step_fault_of_next? hstore, Machine.fault?, Machine.rangeFault?_eq_none_iff]
  omega

end Hardware

end Chip8
