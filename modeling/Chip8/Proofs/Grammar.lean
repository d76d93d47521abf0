import Chip8.Proofs.Hardware.Simulation
import Chip8.Proofs.Opcodes

/-!
# The grammar of opcodes

The decoder accepts the documented patterns and nothing else, and each opcode that it accepts
matches one of them only. The encoder undoes it up to the third nibble of the two shifts, so two
opcodes have the same meaning only if they are the same shift of the same register.
-/

namespace Chip8

/-- Both opcodes are `8xy6`, or both are `8xyE`, with the same `x`. -/
def Opcode.SameShift (a b : UInt16) : Prop :=
  ∃ x low : Nat, (low = 0x6 ∨ low = 0xE) ∧
    (⟨some 0x8, some x, none, some low⟩ : Pattern).Matches a ∧
    (⟨some 0x8, some x, none, some low⟩ : Pattern).Matches b

namespace Instruction

/-- The opcode of the instruction has a nibble that is not read. -/
def hasUnread : Instruction → Bool
  | shiftRight _ | shiftLeft _ => true
  | _ => false

/-- The largest value of an operand with this name. -/
def operandLimit (name : String) : Nat :=
  if name = "addr" then 0xFFF else if name = "kk" then 0xFF else 0xF

theorem operands_le_operandLimit (i : Instruction) :
    ∀ field ∈ i.operands, field.2 ≤ operandLimit field.1 := by
  have hnibble : ∀ x : Fin 16, x.val ≤ 0xF := fun x => Nat.le_of_lt_succ x.isLt
  have hbyte : ∀ kk : UInt8, kk.toNat ≤ 0xFF := fun kk => Nat.le_of_lt_succ kk.toNat_lt
  have haddr : ∀ addr : Fin 4096, addr.val ≤ 0xFFF := fun addr => Nat.le_of_lt_succ addr.isLt
  cases i with
  | _ => simp [operands, operandLimit, hnibble, hbyte, haddr]

/-! ## What the decoder says -/

theorem decode_eq_ok_iff (opcode : UInt16) (i : Instruction) :
    decode opcode = .ok i ↔ ofOpcode? opcode = some i := by
  unfold decode
  cases ofOpcode? opcode <;> simp

theorem decode_eq_error_iff (opcode : UInt16) (fault : Fault) :
    decode opcode = .error fault ↔
      ¬Opcode.Documented opcode ∧ fault = .illegalOpcode opcode := by
  rw [documented_iff]
  unfold decode
  cases ofOpcode? opcode with
  | none => simp [eq_comm]
  | some i => simp

/-- An opcode matches the pattern of what it decodes to and no other. -/
theorem pattern_matches_iff {opcode : UInt16} {i : Instruction} (h : ofOpcode? opcode = some i)
    (j : Instruction) : j.pattern.Matches opcode ↔ j.pattern = i.pattern := by
  constructor
  · intro hj
    obtain ⟨k, hk, hpattern⟩ := exists_of_pattern_matches hj
    obtain rfl : k = i := Option.some.inj (hk.symm.trans h)
    exact hpattern.symm
  · intro hpattern
    rw [hpattern, eq_encode_of_ofOpcode?_eq_some h]
    exact pattern_matches_encode _ i

/-! ## What the encoder gives back -/

theorem ofNibbles_eq_iff {a d : Nat} (ha : a < 16) (b c c' : Fin 16) (hd : d < 16) :
    ofNibbles a b c d = ofNibbles a b c' d ↔ c = c' := by
  constructor
  · intro h
    obtain ⟨-, -, hc, -⟩ := fields_ofNibbles ha b c hd
    obtain ⟨-, -, hc', -⟩ := fields_ofNibbles ha b c' hd
    rw [← hc, h, hc']
  · rintro rfl
    rfl

theorem encode_eq_encode_iff (unread unread' : Fin 16) (i : Instruction) :
    encode unread i = encode unread' i ↔ (i.hasUnread = true → unread = unread') := by
  cases i with
  | shiftRight x | shiftLeft x =>
      simp only [encode, hasUnread, ofNibbles_eq_iff (a := 0x8) (by decide) x unread unread',
        Nat.reduceLT, forall_const]
  | _ => simp [encode, hasUnread]

theorem ofOpcode?_of_eq_encode {opcode : UInt16} {unread : Fin 16} {i : Instruction}
    (h : opcode = encode unread i) : ofOpcode? opcode = some i := by
  rw [h, ofOpcode?_encode]

theorem encode_eq_iff {opcode : UInt16} {i : Instruction} (h : ofOpcode? opcode = some i)
    (unread : Fin 16) :
    encode unread i = opcode ↔ (i.hasUnread = true → unread = Opcode.y opcode) := by
  have hopcode := eq_encode_of_ofOpcode?_eq_some h
  rw [← encode_eq_encode_iff, ← hopcode]

end Instruction

open Instruction

namespace Opcode

theorem SameShift.decodes {a b : UInt16} (h : SameShift a b) :
    ∃ i, ofOpcode? a = some i ∧ ofOpcode? b = some i := by
  obtain ⟨x, low, hlow, ⟨ha₁, ha₂, -, ha₄⟩, hb₁, hb₂, -, hb₄⟩ := h
  simp only [Option.mem_some, forall_eq'] at ha₁ ha₂ ha₄ hb₁ hb₂ hb₄
  have hx : Opcode.x a = Opcode.x b := Fin.ext (ha₂.trans hb₂.symm)
  rcases hlow with rfl | rfl
  · exact ⟨.shiftRight (Opcode.x a), ofOpcode?_of_eq_encode (eq_ofNibbles ha₁ ha₄),
      hx ▸ ofOpcode?_of_eq_encode (eq_ofNibbles hb₁ hb₄)⟩
  · exact ⟨.shiftLeft (Opcode.x a), ofOpcode?_of_eq_encode (eq_ofNibbles ha₁ ha₄),
      hx ▸ ofOpcode?_of_eq_encode (eq_ofNibbles hb₁ hb₄)⟩

theorem sameShift_of_decodes {a b : UInt16} (hne : b ≠ a) {i : Instruction}
    (ha : ofOpcode? a = some i) (hb : ofOpcode? b = some i) : SameShift a b := by
  -- if every nibble were read, both would be the one opcode of `i`
  have hunread : i.hasUnread = true := by
    rw [← Bool.not_eq_false]
    intro hall
    have hsame : encode (y b) i = a := (encode_eq_iff ha (y b)).2 (by simp [hall])
    exact hne ((eq_encode_of_ofOpcode?_eq_some hb).trans hsame)
  rw [eq_encode_of_ofOpcode?_eq_some ha, eq_encode_of_ofOpcode?_eq_some hb]
  cases i with
  | shiftRight r => exact ⟨r, 0x6, Or.inl rfl, by simp [Pattern.Matches, encode, digits_ofNibbles]⟩
  | shiftLeft r => exact ⟨r, 0xE, Or.inr rfl, by simp [Pattern.Matches, encode, digits_ofNibbles]⟩
  | _ => cases hunread

end Opcode

namespace Hardware

/-- The decoder accepts exactly the documented patterns and hands back any other opcode. What it
accepts matches one pattern only, has operands of the right size and is encoded as that opcode
again, whatever stands in a nibble that is not read. So only shifts have the same meaning as
another opcode. The operand fields that the hardware masks out give the same instruction. -/
theorem decode_inverts_encode (opcode : UInt16) :
    ((∃ i, Instruction.decode opcode = .ok i) ↔ Opcode.Documented opcode) ∧
      (∀ fault, Instruction.decode opcode = .error fault ↔
        ¬Opcode.Documented opcode ∧ fault = .illegalOpcode opcode) ∧
      (∀ i, Instruction.decode opcode = .ok i →
        (∀ field ∈ i.operands, field.2 ≤ operandLimit field.1) ∧
          (∀ j : Instruction, j.pattern.Matches opcode ↔ j.pattern = i.pattern) ∧
          ∀ unread, encode unread i = opcode ↔ (i.hasUnread = true → unread = Opcode.y opcode)) ∧
      (∀ unread i, Instruction.decode (encode unread i) = .ok i) ∧
      (∀ other, other ≠ opcode →
        ((∃ i, Instruction.decode opcode = .ok i ∧ Instruction.decode other = .ok i) ↔
          Opcode.SameShift opcode other)) ∧
      ∀ h, decode opcode h =
        match Instruction.decode opcode with
        | .error fault => .fault fault h
        | .ok i => .done i h := by
  simp only [decode_eq_ok_iff]
  refine ⟨(documented_iff opcode).symm, decode_eq_error_iff opcode, fun i hi => ?_,
    ofOpcode?_encode, fun other hne => ?_, decode_apply opcode⟩
  · exact ⟨i.operands_le_operandLimit, pattern_matches_iff hi, encode_eq_iff hi⟩
  · constructor
    · rintro ⟨i, hi, hother⟩
      exact Opcode.sameShift_of_decodes hne hi hother
    · exact Opcode.SameShift.decodes

/-- `8126` and `81F6` both shift register 1, and the third nibble gives back the opcode. -/
theorem decode_inverts_encode_shift :
    Instruction.decode 0x8126 = .ok (.shiftRight 1) ∧ encode 2 (.shiftRight 1) = 0x8126 ∧
      Opcode.SameShift 0x8126 0x81F6 := by
  obtain ⟨-, -, hdecoded, hencoded, hshared, -⟩ := decode_inverts_encode 0x8126
  have hi : Instruction.decode 0x8126 = .ok (.shiftRight 1) := hencoded 2 (.shiftRight 1)
  have hother : Instruction.decode 0x81F6 = .ok (.shiftRight 1) := hencoded 15 (.shiftRight 1)
  exact ⟨hi, ((hdecoded _ hi).2.2 2).2 fun _ => rfl, (hshared 0x81F6 (by decide)).1 ⟨_, hi, hother⟩⟩

end Hardware

end Chip8
