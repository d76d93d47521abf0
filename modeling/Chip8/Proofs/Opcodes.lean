import Chip8.Instruction.Decode
import Chip8.Instruction.Encode

/-!
# Opcode patterns

The documented patterns are written down apart from the decoder. The decoder accepts exactly the
opcodes that match one of them, and the encoder gives back every opcode that it accepts.
-/

namespace Chip8

/-! ## Patterns -/

/-- Four nibbles from the highest one on, with `none` where any nibble will do. -/
structure Pattern where
  first : Option Nat
  second : Option Nat
  third : Option Nat
  fourth : Option Nat

def Pattern.Matches (p : Pattern) (opcode : UInt16) : Prop :=
  (∀ digit ∈ p.first, opcode.toNat / 4096 = digit) ∧
    (∀ digit ∈ p.second, opcode.toNat / 256 % 16 = digit) ∧
    (∀ digit ∈ p.third, opcode.toNat / 16 % 16 = digit) ∧
    ∀ digit ∈ p.fourth, opcode.toNat % 16 = digit

/-- The documented pattern of an instruction, whatever its operands are. -/
def Instruction.pattern : Instruction → Pattern
  | clearScreen => ⟨some 0x0, some 0x0, some 0xE, some 0x0⟩ -- 00E0
  | ret => ⟨some 0x0, some 0x0, some 0xE, some 0xE⟩ -- 00EE
  | jump _ => ⟨some 0x1, none, none, none⟩ -- 1nnn
  | call _ => ⟨some 0x2, none, none, none⟩ -- 2nnn
  | skipIfEqualByte _ _ => ⟨some 0x3, none, none, none⟩ -- 3xkk
  | skipIfNotEqualByte _ _ => ⟨some 0x4, none, none, none⟩ -- 4xkk
  | skipIfEqual _ _ => ⟨some 0x5, none, none, some 0x0⟩ -- 5xy0
  | loadByte _ _ => ⟨some 0x6, none, none, none⟩ -- 6xkk
  | addByte _ _ => ⟨some 0x7, none, none, none⟩ -- 7xkk
  | load _ _ => ⟨some 0x8, none, none, some 0x0⟩ -- 8xy0
  | or _ _ => ⟨some 0x8, none, none, some 0x1⟩ -- 8xy1
  | and _ _ => ⟨some 0x8, none, none, some 0x2⟩ -- 8xy2
  | xor _ _ => ⟨some 0x8, none, none, some 0x3⟩ -- 8xy3
  | add _ _ => ⟨some 0x8, none, none, some 0x4⟩ -- 8xy4
  | sub _ _ => ⟨some 0x8, none, none, some 0x5⟩ -- 8xy5
  | shiftRight _ => ⟨some 0x8, none, none, some 0x6⟩ -- 8xy6
  | subN _ _ => ⟨some 0x8, none, none, some 0x7⟩ -- 8xy7
  | shiftLeft _ => ⟨some 0x8, none, none, some 0xE⟩ -- 8xyE
  | skipIfNotEqual _ _ => ⟨some 0x9, none, none, some 0x0⟩ -- 9xy0
  | loadIndex _ => ⟨some 0xA, none, none, none⟩ -- Annn
  | jumpOffset _ => ⟨some 0xB, none, none, none⟩ -- Bnnn
  | random _ _ => ⟨some 0xC, none, none, none⟩ -- Cxkk
  | draw _ _ _ => ⟨some 0xD, none, none, none⟩ -- Dxyn
  | skipIfKeyPressed _ => ⟨some 0xE, none, some 0x9, some 0xE⟩ -- Ex9E
  | skipIfKeyNotPressed _ => ⟨some 0xE, none, some 0xA, some 0x1⟩ -- ExA1
  | loadDelayTimer _ => ⟨some 0xF, none, some 0x0, some 0x7⟩ -- Fx07
  | waitForKey _ => ⟨some 0xF, none, some 0x0, some 0xA⟩ -- Fx0A
  | setDelayTimer _ => ⟨some 0xF, none, some 0x1, some 0x5⟩ -- Fx15
  | setSoundTimer _ => ⟨some 0xF, none, some 0x1, some 0x8⟩ -- Fx18
  | addIndex _ => ⟨some 0xF, none, some 0x1, some 0xE⟩ -- Fx1E
  | loadGlyph _ => ⟨some 0xF, none, some 0x2, some 0x9⟩ -- Fx29
  | storeBcd _ => ⟨some 0xF, none, some 0x3, some 0x3⟩ -- Fx33
  | storeRegisters _ => ⟨some 0xF, none, some 0x5, some 0x5⟩ -- Fx55
  | loadRegisters _ => ⟨some 0xF, none, some 0x6, some 0x5⟩ -- Fx65

namespace Opcode

/-- The opcode matches the pattern of some instruction. -/
def Documented (opcode : UInt16) : Prop := ∃ i : Instruction, i.pattern.Matches opcode

theorem toNat_kk (opcode : UInt16) : (kk opcode).toNat = opcode.toNat % 256 := by
  simp [kk]

theorem val_n (opcode : UInt16) : (n opcode).val = opcode.toNat % 16 := rfl

end Opcode

namespace Instruction

/-! ## Encoding what was decoded -/

theorem eq_ofNibbles {opcode : UInt16} {a d : Nat} (ha : opcode.toNat / 4096 = a)
    (hd : (Opcode.n opcode).val = d) :
    opcode = ofNibbles a (Opcode.x opcode) (Opcode.y opcode) d := by
  have hlt := opcode.toNat_lt
  apply UInt16.toNat_inj.1
  simp only [ofNibbles, UInt16.toNat_ofNat', Opcode.x, Opcode.y, ← hd, Opcode.val_n, ← ha]
  omega

theorem eq_ofNibblesByte {opcode : UInt16} {a : Nat} (ha : opcode.toNat / 4096 = a) :
    opcode = ofNibblesByte a (Opcode.x opcode) (Opcode.kk opcode) := by
  have hlt := opcode.toNat_lt
  apply UInt16.toNat_inj.1
  simp only [ofNibblesByte, UInt16.toNat_ofNat', Opcode.x, Opcode.toNat_kk, ← ha]
  omega

theorem eq_ofNibbleAddr {opcode : UInt16} {a : Nat} (ha : opcode.toNat / 4096 = a) :
    opcode = ofNibbleAddr a (Opcode.addr opcode) := by
  have hlt := opcode.toNat_lt
  apply UInt16.toNat_inj.1
  simp only [ofNibbleAddr, UInt16.toNat_ofNat', Opcode.addr, ← ha]
  omega

theorem encode_of_ofArithmetic? {x y : Fin 16} {n : Nat} {i : Instruction}
    (h : ofArithmetic? x y n = some i) : encode y i = ofNibbles 0x8 x y n := by
  unfold ofArithmetic? at h
  split at h <;> cases h <;> rfl

theorem encode_of_ofKeypad? {x unread : Fin 16} {kk : UInt8} {i : Instruction}
    (h : ofKeypad? x kk.toNat = some i) : encode unread i = ofNibblesByte 0xE x kk := by
  obtain ⟨low, hlow⟩ : ∃ low, low = kk.toNat := ⟨_, rfl⟩
  have hkk : kk = .ofNat low := by rw [hlow, UInt8.ofNat_toNat]
  rw [← hlow] at h
  unfold ofKeypad? at h
  split at h <;> cases h <;> rw [hkk] <;> rfl

theorem encode_of_ofMisc? {x unread : Fin 16} {kk : UInt8} {i : Instruction}
    (h : ofMisc? x kk.toNat = some i) : encode unread i = ofNibblesByte 0xF x kk := by
  obtain ⟨low, hlow⟩ : ∃ low, low = kk.toNat := ⟨_, rfl⟩
  have hkk : kk = .ofNat low := by rw [hlow, UInt8.ofNat_toNat]
  rw [← hlow] at h
  unfold ofMisc? at h
  split at h <;> cases h <;> rw [hkk] <;> rfl

/-- Every opcode that the decoder accepts is the opcode of what it decodes to. -/
theorem eq_encode_of_ofOpcode?_eq_some {opcode : UInt16} {i : Instruction}
    (h : ofOpcode? opcode = some i) : opcode = encode (Opcode.y opcode) i := by
  unfold ofOpcode? ofFields? at h
  split at h
  case h_1 =>
    split at h
    · next heq =>
        cases h
        exact heq
    · split at h
      · next heq =>
          cases h
          exact heq
      · cases h
  case h_2 hrow | h_3 hrow | h_11 hrow | h_12 hrow =>
    cases h
    exact eq_ofNibbleAddr hrow
  case h_4 hrow | h_5 hrow | h_7 hrow | h_8 hrow | h_13 hrow =>
    cases h
    exact eq_ofNibblesByte hrow
  case h_6 hrow | h_10 hrow =>
    split at h
    · next hn =>
        cases h
        exact eq_ofNibbles hrow hn
    · cases h
  case h_9 hrow =>
    rw [encode_of_ofArithmetic? h]
    exact eq_ofNibbles hrow rfl
  case h_14 hrow =>
    cases h
    exact eq_ofNibbles hrow rfl
  case h_15 hrow =>
    rw [encode_of_ofKeypad? h]
    exact eq_ofNibblesByte hrow
  case h_16 hrow =>
    rw [encode_of_ofMisc? h]
    exact eq_ofNibblesByte hrow
  case h_17 => cases h

/-! ## Decoding what was encoded -/

theorem toNat_ofNibbles {a d : Nat} (ha : a < 16) (b c : Fin 16) (hd : d < 16) :
    (ofNibbles a b c d).toNat = a * 4096 + b * 256 + c * 16 + d := by
  have hb := b.isLt
  have hc := c.isLt
  exact UInt16.toNat_ofNat_of_lt' (by simp only [UInt16.size]; omega)

theorem toNat_ofNibblesByte {a : Nat} (ha : a < 16) (b : Fin 16) (kk : UInt8) :
    (ofNibblesByte a b kk).toNat = a * 4096 + b * 256 + kk.toNat := by
  have hb := b.isLt
  have hkk := kk.toNat_lt
  exact UInt16.toNat_ofNat_of_lt' (by simp only [UInt16.size]; omega)

theorem toNat_ofNibbleAddr {a : Nat} (ha : a < 16) (addr : Fin 4096) :
    (ofNibbleAddr a addr).toNat = a * 4096 + addr := by
  have haddr := addr.isLt
  exact UInt16.toNat_ofNat_of_lt' (by simp only [UInt16.size]; omega)

theorem digits_ofNibbles {a d : Nat} (ha : a < 16) (b c : Fin 16) (hd : d < 16) :
    (ofNibbles a b c d).toNat / 4096 = a ∧ (ofNibbles a b c d).toNat / 256 % 16 = b ∧
      (ofNibbles a b c d).toNat / 16 % 16 = c ∧ (ofNibbles a b c d).toNat % 16 = d := by
  have hb := b.isLt
  have hc := c.isLt
  rw [toNat_ofNibbles ha b c hd]
  omega

theorem digits_ofNibblesByte {a : Nat} (ha : a < 16) (b : Fin 16) (kk : UInt8) :
    (ofNibblesByte a b kk).toNat / 4096 = a ∧ (ofNibblesByte a b kk).toNat / 256 % 16 = b ∧
      (ofNibblesByte a b kk).toNat / 16 % 16 = kk.toNat / 16 ∧
      (ofNibblesByte a b kk).toNat % 16 = kk.toNat % 16 ∧
      (ofNibblesByte a b kk).toNat % 256 = kk.toNat := by
  have hb := b.isLt
  have hkk := kk.toNat_lt
  rw [toNat_ofNibblesByte ha b kk]
  omega

theorem fields_ofNibbles {a d : Nat} (ha : a < 16) (b c : Fin 16) (hd : d < 16) :
    (ofNibbles a b c d).toNat / 4096 = a ∧ Opcode.x (ofNibbles a b c d) = b ∧
      Opcode.y (ofNibbles a b c d) = c ∧ (Opcode.n (ofNibbles a b c d)).val = d := by
  obtain ⟨hfirst, hsecond, hthird, hfourth⟩ := digits_ofNibbles ha b c hd
  exact ⟨hfirst, Fin.ext hsecond, Fin.ext hthird, hfourth⟩

theorem fields_ofNibblesByte {a : Nat} (ha : a < 16) (b : Fin 16) (kk : UInt8) :
    (ofNibblesByte a b kk).toNat / 4096 = a ∧ Opcode.x (ofNibblesByte a b kk) = b ∧
      Opcode.kk (ofNibblesByte a b kk) = kk := by
  obtain ⟨hfirst, hsecond, -, -, hlow⟩ := digits_ofNibblesByte ha b kk
  refine ⟨hfirst, Fin.ext hsecond, UInt8.toNat_inj.1 ?_⟩
  rw [Opcode.toNat_kk, hlow]

theorem fields_ofNibbleAddr {a : Nat} (ha : a < 16) (addr : Fin 4096) :
    (ofNibbleAddr a addr).toNat / 4096 = a ∧ Opcode.addr (ofNibbleAddr a addr) = addr := by
  have hopcode := toNat_ofNibbleAddr ha addr
  have haddr := addr.isLt
  refine ⟨by omega, Fin.ext ?_⟩
  simp only [Opcode.addr]
  omega

theorem ofOpcode?_encode (unread : Fin 16) (i : Instruction) :
    ofOpcode? (encode unread i) = some i := by
  cases i with
  | clearScreen | ret => simp [ofOpcode?, ofFields?, encode]
  | jump addr | call addr | loadIndex addr | jumpOffset addr =>
      simp [ofOpcode?, ofFields?, encode, fields_ofNibbleAddr]
  | skipIfEqualByte x kk | skipIfNotEqualByte x kk | loadByte x kk | addByte x kk | random x kk =>
      simp [ofOpcode?, ofFields?, encode, fields_ofNibblesByte]
  | skipIfEqual x y | skipIfNotEqual x y => simp [ofOpcode?, ofFields?, encode, fields_ofNibbles]
  | draw x y n =>
      obtain ⟨hrow, hx, hy, hn⟩ := fields_ofNibbles (a := 0xD) (by decide) x y n.isLt
      simp [ofOpcode?, ofFields?, encode, hrow, hx, hy, Fin.ext hn]
  | load x y | or x y | and x y | xor x y | add x y | sub x y | subN x y | shiftRight x
  | shiftLeft x => simp [ofOpcode?, ofFields?, encode, fields_ofNibbles, ofArithmetic?]
  | skipIfKeyPressed x | skipIfKeyNotPressed x =>
      simp [ofOpcode?, ofFields?, encode, fields_ofNibblesByte, ofKeypad?]
  | loadDelayTimer x | waitForKey x | setDelayTimer x | setSoundTimer x | addIndex x | loadGlyph x
  | storeBcd x | storeRegisters x | loadRegisters x =>
      simp [ofOpcode?, ofFields?, encode, fields_ofNibblesByte, ofMisc?]

/-! ## The decoder against the patterns -/

theorem pattern_matches_encode (unread : Fin 16) (i : Instruction) :
    i.pattern.Matches (encode unread i) := by
  cases i with
  | clearScreen | ret => simp [Pattern.Matches, pattern, encode]
  | jump addr | call addr | loadIndex addr | jumpOffset addr =>
      simp [Pattern.Matches, pattern, encode, fields_ofNibbleAddr]
  | skipIfEqualByte x kk | skipIfNotEqualByte x kk | loadByte x kk | addByte x kk | random x kk =>
      simp [Pattern.Matches, pattern, encode, digits_ofNibblesByte]
  | skipIfEqual x y | skipIfNotEqual x y | draw x y n | load x y | or x y | and x y | xor x y
  | add x y | sub x y | subN x y | shiftRight x | shiftLeft x =>
      simp [Pattern.Matches, pattern, encode, digits_ofNibbles]
  | skipIfKeyPressed x | skipIfKeyNotPressed x | loadDelayTimer x | waitForKey x | setDelayTimer x
  | setSoundTimer x | addIndex x | loadGlyph x | storeBcd x | storeRegisters x
  | loadRegisters x =>
      simp [Pattern.Matches, pattern, encode, digits_ofNibblesByte]

theorem exists_of_pattern_matches {i : Instruction} {opcode : UInt16}
    (h : i.pattern.Matches opcode) : ∃ j, ofOpcode? opcode = some j ∧ j.pattern = i.pattern := by
  obtain ⟨h₁, h₂, h₃, h₄⟩ := h
  have hkk := Opcode.toNat_kk opcode
  have hlow : opcode.toNat % 256 = opcode.toNat / 16 % 16 * 16 + opcode.toNat % 16 := by omega
  cases i with
  | clearScreen =>
      simp [pattern] at h₁ h₂ h₃ h₄
      have hopcode : opcode = 0x00E0 := UInt16.toNat_inj.1 (by simp; omega)
      exact ⟨clearScreen, hopcode.symm ▸ ofOpcode?_encode 0 clearScreen, rfl⟩
  | ret =>
      simp [pattern] at h₁ h₂ h₃ h₄
      have hopcode : opcode = 0x00EE := UInt16.toNat_inj.1 (by simp; omega)
      exact ⟨ret, hopcode.symm ▸ ofOpcode?_encode 0 ret, rfl⟩
  | skipIfKeyPressed x | skipIfKeyNotPressed x | loadDelayTimer x | waitForKey x | setDelayTimer x
  | setSoundTimer x | addIndex x | loadGlyph x | storeBcd x | storeRegisters x
  | loadRegisters x =>
      simp [pattern] at h₁ h₃ h₄
      simp [ofOpcode?, ofFields?, h₁, ofKeypad?, ofMisc?, hkk, hlow, h₃, h₄, pattern]
  | _ =>
      simp [pattern] at h₁ h₄
      simp [ofOpcode?, ofFields?, h₁, Opcode.val_n, h₄, ofArithmetic?, pattern]

theorem documented_iff (opcode : UInt16) :
    Opcode.Documented opcode ↔ ∃ i, ofOpcode? opcode = some i := by
  constructor
  · rintro ⟨i, hi⟩
    obtain ⟨j, hj, -⟩ := exists_of_pattern_matches hi
    exact ⟨j, hj⟩
  · rintro ⟨i, hi⟩
    refine ⟨i, ?_⟩
    rw [eq_encode_of_ofOpcode?_eq_some hi]
    exact pattern_matches_encode _ i

end Instruction

end Chip8
