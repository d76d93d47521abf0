import Chip8.Proofs.Bounds
import Chip8.Proofs.Opcodes
import Mathlib.Order.Bounds.Defs

/-!
# Causes of faults

Why a step fails can be read off the state before it: the program counter, the opcode there, the
depth of the stack, and the range that the opcode touches through the index register. The causes
below say so without the decoder.
-/

namespace Chip8

/-! ## Accesses through the index register -/

namespace Opcode

/-- The opcode makes an instruction touch `len` bytes from the index register on. -/
inductive Touches (opcode : UInt16) : Nat → Prop where
  | draw (hrow : opcode.toNat / 4096 = 0xD) : Touches opcode (opcode.toNat % 16)
  | digits (hrow : opcode.toNat / 4096 = 0xF) (hlow : opcode.toNat % 256 = 0x33) :
      Touches opcode 3
  | store (hrow : opcode.toNat / 4096 = 0xF) (hlow : opcode.toNat % 256 = 0x55) :
      Touches opcode (opcode.toNat / 256 % 16 + 1)
  | load (hrow : opcode.toNat / 4096 = 0xF) (hlow : opcode.toNat % 256 = 0x65) :
      Touches opcode (opcode.toNat / 256 % 16 + 1)

theorem touches_iff (opcode : UInt16) (len : Nat) :
    Touches opcode len ↔
      opcode.toNat / 4096 = 0xD ∧ len = opcode.toNat % 16 ∨
        opcode.toNat / 4096 = 0xF ∧
          (opcode.toNat % 256 = 0x33 ∧ len = 3 ∨
            (opcode.toNat % 256 = 0x55 ∨ opcode.toNat % 256 = 0x65) ∧
              len = opcode.toNat / 256 % 16 + 1) := by
  constructor
  · rintro (hrow | ⟨hrow, hlow⟩ | ⟨hrow, hlow⟩ | ⟨hrow, hlow⟩)
    · exact Or.inl ⟨hrow, rfl⟩
    · exact Or.inr ⟨hrow, Or.inl ⟨hlow, rfl⟩⟩
    · exact Or.inr ⟨hrow, Or.inr ⟨Or.inl hlow, rfl⟩⟩
    · exact Or.inr ⟨hrow, Or.inr ⟨Or.inr hlow, rfl⟩⟩
  · rintro (⟨hrow, rfl⟩ | ⟨hrow, ⟨hlow, rfl⟩ | ⟨hlow | hlow, rfl⟩⟩)
    · exact .draw hrow
    · exact .digits hrow hlow
    · exact .store hrow hlow
    · exact .load hrow hlow

theorem Touches.documented {opcode : UInt16} {len : Nat} (h : Touches opcode len) :
    Documented opcode := by
  have hthird : opcode.toNat / 16 % 16 = opcode.toNat % 256 / 16 := by omega
  have hfourth : opcode.toNat % 16 = opcode.toNat % 256 % 16 := by omega
  cases h with
  | draw hrow => exact ⟨.draw 0 0 0, by simp [Pattern.Matches, Instruction.pattern, hrow]⟩
  | digits hrow hlow =>
      refine ⟨.storeBcd 0, ?_⟩
      simp [Pattern.Matches, Instruction.pattern, hrow, hthird, hfourth, hlow]
  | store hrow hlow =>
      refine ⟨.storeRegisters 0, ?_⟩
      simp [Pattern.Matches, Instruction.pattern, hrow, hthird, hfourth, hlow]
  | load hrow hlow =>
      refine ⟨.loadRegisters 0, ?_⟩
      simp [Pattern.Matches, Instruction.pattern, hrow, hthird, hfourth, hlow]

end Opcode

namespace Instruction

def accessLength? : Instruction → Option Nat
  | .draw _ _ n => some n
  | .storeBcd _ => some 3
  | .storeRegisters x | .loadRegisters x => some (x + 1)
  | _ => none

theorem touches_encode_iff (unread : Fin 16) (i : Instruction) (len : Nat) :
    Opcode.Touches (encode unread i) len ↔ i.accessLength? = some len := by
  rw [Opcode.touches_iff]
  cases i with
  | clearScreen | ret => simp [encode, accessLength?]
  | jump addr | call addr | loadIndex addr | jumpOffset addr =>
      simp [encode, accessLength?, fields_ofNibbleAddr]
  | skipIfEqualByte x kk | skipIfNotEqualByte x kk | loadByte x kk | addByte x kk | random x kk =>
      simp [encode, accessLength?, fields_ofNibblesByte]
  | skipIfEqual x y | skipIfNotEqual x y | load x y | or x y | and x y | xor x y
  | add x y | sub x y | subN x y | shiftRight x | shiftLeft x =>
      simp [encode, accessLength?, fields_ofNibbles]
  | draw x y n => simp [encode, accessLength?, digits_ofNibbles, eq_comm]
  | skipIfKeyPressed x | skipIfKeyNotPressed x | loadDelayTimer x | waitForKey x | setDelayTimer x
  | setSoundTimer x | addIndex x | loadGlyph x | storeBcd x | storeRegisters x
  | loadRegisters x =>
      simp [encode, accessLength?, digits_ofNibblesByte, eq_comm]

theorem touches_iff_accessLength? {opcode : UInt16} {i : Instruction}
    (h : ofOpcode? opcode = some i) (len : Nat) :
    Opcode.Touches opcode len ↔ i.accessLength? = some len := by
  rw [eq_encode_of_ofOpcode?_eq_some h]
  exact touches_encode_iff _ i len

end Instruction

namespace Machine

/-- The addresses of `len` bytes from the index register on that are outside of memory. -/
def outside (m : Machine) (len : Nat) : Set Nat :=
  {a | m.index.toNat ≤ a ∧ a < m.index.toNat + len ∧ 4096 ≤ a}

theorem isLeast_outside_iff (m : Machine) (len a : Nat) :
    IsLeast (m.outside len) a ↔
      (0 < len ∧ 4096 < m.index.toNat + len) ∧ a = max m.index.toNat 4096 := by
  constructor
  · rintro ⟨⟨hbase, hend, hmemory⟩, hleast⟩
    refine ⟨by omega, Nat.le_antisymm ?_ (by omega)⟩
    exact hleast ⟨by omega, by omega, by omega⟩
  · rintro ⟨⟨hlen, hend⟩, rfl⟩
    refine ⟨⟨by omega, by omega, by omega⟩, ?_⟩
    rintro b ⟨hbase, -, hmemory⟩
    exact Nat.max_le.2 ⟨hbase, hmemory⟩

theorem rangeFault?_eq_some_iff (m : Machine) (len : Nat) (fault : Fault) :
    m.rangeFault? len = some fault ↔
      ∃ a, IsLeast (m.outside len) a ∧ fault = .memoryOutOfBounds a := by
  simp only [isLeast_outside_iff, rangeFault?]
  split
  · next h => simp [h, eq_comm]
  · next h => simp [h]

/-- Only a return, a call and an access through the index register can fail. -/
theorem fault?_eq_some_iff (m : Machine) (i : Instruction) (fault : Fault) :
    m.fault? i = some fault ↔
      (i = .ret ∧ m.stack.depth = 0 ∧ fault = .stackUnderflow) ∨
        (∃ addr, i = .call addr ∧ 16 ≤ m.stack.depth ∧ fault = .stackOverflow (.ofNat addr)) ∨
          ∃ len a, i.accessLength? = some len ∧ IsLeast (m.outside len) a ∧
            fault = .memoryOutOfBounds a := by
  cases i with
  | ret | call addr => simp [fault?, Instruction.accessLength?, eq_comm]
  | draw x y n | storeBcd x | storeRegisters x | loadRegisters x =>
      simp [fault?, Instruction.accessLength?, rangeFault?_eq_some_iff]
  | _ => simp [fault?, Instruction.accessLength?]

/-! ## The causes -/

inductive FaultCause (m : Machine) : Fault → Prop where
  | pcOutOfBounds (hpc : 0xFFE < m.pc.toNat) : FaultCause m (.pcOutOfBounds m.pc)
  | illegalOpcode (hpc : m.pc.toNat ≤ 0xFFE) (hopcode : ¬Opcode.Documented m.opcode) :
      FaultCause m (.illegalOpcode m.opcode)
  | stackUnderflow (hpc : m.pc.toNat ≤ 0xFFE) (hopcode : m.opcode = 0x00EE)
      (hdepth : m.stack.depth = 0) : FaultCause m .stackUnderflow
  | stackOverflow (hpc : m.pc.toNat ≤ 0xFFE) (addr : Fin 4096)
      (hopcode : m.opcode.toNat = 0x2000 + addr) (hdepth : m.stack.depth = 16) :
      FaultCause m (.stackOverflow (.ofNat addr))
  | memoryOutOfBounds (hpc : m.pc.toNat ≤ 0xFFE) {len a : Nat}
      (hopcode : Opcode.Touches m.opcode len) (ha : IsLeast (m.outside len) a) :
      FaultCause m (.memoryOutOfBounds a)

theorem opcode_eq_encode {m : Machine} {i : Instruction} (h : m.next? = .ok i) :
    m.opcode = i.encode (Opcode.y m.opcode) :=
  Instruction.eq_encode_of_ofOpcode?_eq_some ((m.next?_eq_ok_iff i).1 h).2

theorem faultCause_of_step {m : Machine} (hm : m.Bounded) {fault : Fault}
    (h : m.step.fault = some fault) : m.FaultCause fault := by
  rcases (m.step_fault_eq_some_iff fault).1 h with herror | ⟨i, hnext, hfault⟩
  · rcases (m.next?_eq_error_iff fault).1 herror with ⟨hpc, rfl⟩ | ⟨hpc, hopcode, rfl⟩
    · exact .pcOutOfBounds hpc
    · refine .illegalOpcode hpc fun hdocumented => ?_
      obtain ⟨i, hi⟩ := (Instruction.documented_iff m.opcode).1 hdocumented
      simp [hopcode] at hi
  · obtain ⟨hpc, hi⟩ := (m.next?_eq_ok_iff i).1 hnext
    have hopcode := opcode_eq_encode hnext
    rcases (m.fault?_eq_some_iff i fault).1 hfault with
      ⟨rfl, hdepth, rfl⟩ | ⟨addr, rfl, hdepth, rfl⟩ | ⟨len, a, hlen, ha, rfl⟩
    · exact .stackUnderflow hpc hopcode hdepth
    · refine .stackOverflow hpc addr ?_ (Nat.le_antisymm hm.depth_le hdepth)
      rw [hopcode]
      exact Instruction.toNat_ofNibbleAddr (a := 2) (by decide) addr
    · exact .memoryOutOfBounds hpc ((Instruction.touches_iff_accessLength? hi len).2 hlen) ha

theorem step_of_faultCause {m : Machine} {fault : Fault} (h : m.FaultCause fault) :
    m.step.fault = some fault := by
  rw [step_fault_eq_some_iff]
  cases h with
  | pcOutOfBounds hpc => exact Or.inl ((m.next?_eq_error_iff _).2 (Or.inl ⟨hpc, rfl⟩))
  | illegalOpcode hpc hopcode =>
      have hnone : Instruction.ofOpcode? m.opcode = none := by
        rw [Option.eq_none_iff_forall_ne_some]
        intro i hi
        exact hopcode ((Instruction.documented_iff m.opcode).2 ⟨i, hi⟩)
      exact Or.inl ((m.next?_eq_error_iff _).2 (Or.inr ⟨hpc, hnone, rfl⟩))
  | stackUnderflow hpc hopcode hdepth =>
      have hi : Instruction.ofOpcode? m.opcode = some .ret :=
        hopcode ▸ Instruction.ofOpcode?_encode 0 .ret
      refine Or.inr ⟨.ret, (m.next?_eq_ok_iff _).2 ⟨hpc, hi⟩, ?_⟩
      simp [fault?, hdepth]
  | stackOverflow hpc addr hopcode hdepth =>
      have hcall : m.opcode = Instruction.encode 0 (.call addr) := by
        apply UInt16.toNat_inj.1
        rw [hopcode]
        exact (Instruction.toNat_ofNibbleAddr (a := 2) (by decide) addr).symm
      have hi : Instruction.ofOpcode? m.opcode = some (.call addr) :=
        hcall ▸ Instruction.ofOpcode?_encode 0 (.call addr)
      refine Or.inr ⟨.call addr, (m.next?_eq_ok_iff _).2 ⟨hpc, hi⟩, ?_⟩
      simp [fault?, hdepth]
  | memoryOutOfBounds hpc hopcode ha =>
      obtain ⟨i, hi⟩ := (Instruction.documented_iff m.opcode).1 hopcode.documented
      have hlen := (Instruction.touches_iff_accessLength? hi _).1 hopcode
      refine Or.inr ⟨i, (m.next?_eq_ok_iff i).2 ⟨hpc, hi⟩, ?_⟩
      exact (m.fault?_eq_some_iff i _).2 (Or.inr (Or.inr ⟨_, _, hlen, ha, rfl⟩))

theorem step_fault_eq_none_of_touches {m : Machine} {len : Nat} (hpc : m.pc.toNat ≤ 0xFFE)
    (hopcode : Opcode.Touches m.opcode len) (hlen : len = 0 ∨ m.index.toNat + len ≤ 4096) :
    m.step.fault = none := by
  obtain ⟨i, hi⟩ := (Instruction.documented_iff m.opcode).1 hopcode.documented
  have haccess := (Instruction.touches_iff_accessLength? hi _).1 hopcode
  rw [Option.eq_none_iff_forall_ne_some]
  intro fault hfault
  rcases (m.step_fault_eq_some_iff fault).1 hfault with herror | ⟨j, hnext, hj⟩
  · rw [(m.next?_eq_ok_iff i).2 ⟨hpc, hi⟩] at herror
    cases herror
  · obtain rfl : i = j := by
      rw [(m.next?_eq_ok_iff i).2 ⟨hpc, hi⟩] at hnext
      exact Except.ok.inj hnext
    rcases (m.fault?_eq_some_iff i fault).1 hj with
      ⟨rfl, -, -⟩ | ⟨addr, rfl, -, -⟩ | ⟨len', a, hlen', ha, -⟩
    · simp [Instruction.accessLength?] at haccess
    · simp [Instruction.accessLength?] at haccess
    · obtain rfl : len = len' := Option.some.inj (haccess.symm.trans hlen')
      have := (m.isLeast_outside_iff len a).1 ha
      omega

/-- The exact condition of every fault of a step. A step without such a cause succeeds, and so
does an access that ends at the last byte of memory and a sprite without bytes. -/
theorem step_fault_iff {m : Machine} (hm : m.Reachable) :
    (∀ fault, m.step.fault = some fault ↔ m.FaultCause fault) ∧
      (m.step.fault = none ↔ ∀ fault, ¬m.FaultCause fault) ∧
      ∀ len, m.pc.toNat ≤ 0xFFE → Opcode.Touches m.opcode len →
        len = 0 ∨ m.index.toNat + len ≤ 4096 → m.step.fault = none := by
  have hiff : ∀ fault, m.step.fault = some fault ↔ m.FaultCause fault := fun fault =>
    ⟨faultCause_of_step hm.bounded, step_of_faultCause⟩
  refine ⟨hiff, ?_, fun len hpc hopcode hlen => step_fault_eq_none_of_touches hpc hopcode hlen⟩
  rw [Option.eq_none_iff_forall_ne_some]
  exact forall_congr' fun fault => not_congr (hiff fault)

/-- Storing `V0` to `V2` faults where it would end one byte behind memory, and it succeeds where
it ends with the last byte. -/
theorem step_fault_iff_overrun :
    let history : UInt8 → List Call := fun low => [.load [0xAF, low, 0xF2, 0x55], .step]
    let m := fun low => (powerOn (.ofSeed 7)).after (history low)
    (m 0xFE).Reachable ∧ (m 0xFD).Reachable ∧
      (m 0xFE).FaultCause (.memoryOutOfBounds 4096) ∧ (m 0xFD).step.fault = none := by
  intro history m
  have hover : (m 0xFE).Reachable := ⟨.ofSeed 7, history 0xFE, rfl⟩
  have hfits : (m 0xFD).Reachable := ⟨.ofSeed 7, history 0xFD, rfl⟩
  have hfault : (m 0xFE).step.fault = some (.memoryOutOfBounds 4096) := by decide +kernel
  have hstate : (m 0xFD).pc.toNat ≤ 0xFFE ∧ (m 0xFD).index.toNat + 3 ≤ 4096 ∧
      (m 0xFD).opcode = 0xF255 := by decide +kernel
  obtain ⟨hpc, hroom, hopcode⟩ := hstate
  have htouches : Opcode.Touches (m 0xFD).opcode 3 := by
    rw [hopcode]
    exact .store (by decide) (by decide)
  refine ⟨hover, hfits, ((step_fault_iff hover).1 _).1 hfault, ?_⟩
  exact (step_fault_iff hfits).2.2 3 hpc htouches (Or.inr hroom)

end Machine

end Chip8
