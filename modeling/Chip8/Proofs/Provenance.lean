import Chip8.Proofs.Timeline

/-!
# Where the bytes of memory come from

A reset, a loaded program, stored digits and stored registers write to memory, and nothing else
does. So every byte is the one that was written to its address last.
-/

namespace Chip8

/-- What a store leaves at an address, in terms of the bytes `W` that it writes there. -/
theorem Memory.read_store_of_iff (memory : Memory) {base a : Nat} {bytes : List UInt8}
    {W : UInt8 → Prop} (ha : a < 4096) (hW : ∀ b, W b ↔ ∃ k, a = base + k ∧ bytes[k]? = some b) :
    (∀ b, W b → (memory.store base bytes).read a = b) ∧
      ((∀ b, ¬W b) → (memory.store base bytes).read a = memory.read a) := by
  constructor
  · intro b hb
    obtain ⟨k, rfl, hk⟩ := (hW b).1 hb
    obtain ⟨hlength, -⟩ := List.getElem?_eq_some_iff.1 hk
    have hin : base ≤ base + k ∧ base + k < base + bytes.length ∧ base + k < 4096 := by omega
    rw [read_store, if_pos hin, Nat.add_sub_cancel_left, hk, Option.getD_some]
  · intro hnone
    have hout : ¬(base ≤ a ∧ a < base + bytes.length ∧ a < 4096) := by
      rintro ⟨hbase, hend, -⟩
      have hlength : a - base < bytes.length := by omega
      exact hnone _ ((hW _).2 ⟨a - base, by omega, List.getElem?_eq_getElem hlength⟩)
    rw [read_store, if_neg hout]

/-- The byte that a new machine has at an address: the font at the foot of memory, else zero. -/
def powerOnByte (a : Nat) : UInt8 := Font.glyphs[a]?.getD 0

/-- Can the deed write to memory at all? -/
def Deed.stores : Deed → Bool
  | .reset | .loaded _ | .executed (.storeRegisters _) | .executed (.storeBcd _) => true
  | _ => false

/-- The deed of the moment writes the byte `b` to the address `a`. -/
inductive Moment.Writes (t : Moment) (a : Nat) : UInt8 → Prop where
  | reset (hdeed : t.deed = .reset) : Writes t a (powerOnByte a)
  | program {program : List UInt8} {k : Nat} {b : UInt8} (hdeed : t.deed = .loaded program)
      (ha : a = 0x200 + k) (hb : program[k]? = some b) : Writes t a b
  | register {x k : Fin 16} (hdeed : t.deed = .executed (.storeRegisters x)) (hk : k ≤ x)
      (ha : a = t.before.index.toNat + k) : Writes t a (t.before.v k)
  | digit {x : Fin 16} {hundreds tens ones k d : Nat} (hdeed : t.deed = .executed (.storeBcd x))
      (hhundreds : hundreds ≤ 9) (htens : tens ≤ 9) (hones : ones ≤ 9)
      (hsum : 100 * hundreds + 10 * tens + ones = (t.before.v x).toNat)
      (hd : [hundreds, tens, ones][k]? = some d) (ha : a = t.before.index.toNat + k) :
      Writes t a (.ofNat d)

namespace Machine

/-! ## What is stored -/

theorem getElem?_take_registers (m : Machine) (x : Fin 16) (k : Nat) (b : UInt8) :
    (m.registers.toList.take (x + 1))[k]? = some b ↔ ∃ j : Fin 16, j ≤ x ∧ k = j ∧ m.v j = b := by
  have hx := x.isLt
  by_cases hk : k ≤ x
  · have hlt : k < 16 := by omega
    rw [List.getElem?_take_of_lt (Nat.lt_succ_of_le hk), Vector.getElem?_toList,
      m.getElem?_registers ⟨k, hlt⟩]
    constructor
    · intro h
      exact ⟨⟨k, hlt⟩, hk, rfl, Option.some.inj h⟩
    · rintro ⟨j, -, rfl, rfl⟩
      rfl
  · rw [List.getElem?_take_eq_none (Nat.lt_of_not_le hk)]
    simp only [reduceCtorEq, false_iff]
    rintro ⟨j, hj, rfl, -⟩
    exact hk hj

theorem getElem?_decimalDigits (v : UInt8) (k : Nat) (b : UInt8) :
    (decimalDigits v)[k]? = some b ↔
      ∃ hundreds tens ones d, hundreds ≤ 9 ∧ tens ≤ 9 ∧ ones ≤ 9 ∧
        100 * hundreds + 10 * tens + ones = v.toNat ∧ [hundreds, tens, ones][k]? = some d ∧
          .ofNat d = b := by
  have hv := v.toNat_lt
  have hdigits : decimalDigits v =
      [v.toNat / 100, v.toNat / 10 % 10, v.toNat % 10].map UInt8.ofNat := by
    simp [decimalDigits, ← UInt8.toNat_inj]
    omega
  rw [hdigits, List.getElem?_map, Option.map_eq_some_iff]
  constructor
  · rintro ⟨d, hd, rfl⟩
    exact ⟨_, _, _, d, by omega, by omega, by omega, by omega, hd, rfl⟩
  · rintro ⟨hundreds, tens, ones, d, hhundreds, htens, hones, hsum, hd, rfl⟩
    obtain rfl : hundreds = v.toNat / 100 := by omega
    obtain rfl : tens = v.toNat / 10 % 10 := by omega
    obtain rfl : ones = v.toNat % 10 := by omega
    exact ⟨d, hd, rfl⟩

theorem memory_effect (m : Machine) (i : Instruction) :
    (m.effect i).memory =
      match i with
      | .storeBcd x => m.memory.store m.index.toNat (decimalDigits (m.v x))
      | .storeRegisters x => m.memory.store m.index.toNat (m.registers.toList.take (x + 1))
      | _ => m.memory := by
  cases i with
  | waitForKey x => rw [effect_waitForKey]
  | _ => rfl

theorem read_powerOn (random : Random.Generator) {a : Nat} (ha : a < 4096) :
    (powerOn random).memory.read a = powerOnByte a := by
  have hstored := Memory.zero.read_store 0 Font.glyphs a
  by_cases hfont : a < 80
  · rwa [if_pos ⟨Nat.zero_le a, by simpa using hfont, ha⟩] at hstored
  · have hout : ¬(0 ≤ a ∧ a < 0 + Font.glyphs.length ∧ a < 4096) := by simp; omega
    rw [if_neg hout, Memory.read_zero] at hstored
    have hnone : Font.glyphs[a]? = none := List.getElem?_eq_none (by simpa using hfont)
    rw [powerOnByte, hnone]
    exact hstored

end Machine

namespace Moment

/-! ## What a deed writes -/

theorem Writes.stores {t : Moment} {a : Nat} {b : UInt8} (h : t.Writes a b) :
    t.deed.stores = true := by
  cases h with
  | reset hdeed | program hdeed | register hdeed | digit hdeed =>
      rw [hdeed]
      rfl

theorem writes_program_iff (m : Machine) (program : List UInt8) (a : Nat) (b : UInt8) :
    Writes ⟨m, .loaded program⟩ a b ↔ ∃ k, a = 0x200 + k ∧ program[k]? = some b := by
  constructor
  · intro h
    cases h with
    | program hdeed ha hb =>
        cases hdeed
        exact ⟨_, ha, hb⟩
    | reset hdeed | register hdeed | digit hdeed => cases hdeed
  · rintro ⟨k, ha, hb⟩
    exact .program rfl ha hb

theorem writes_registers_iff (m : Machine) (x : Fin 16) (a : Nat) (b : UInt8) :
    Writes ⟨m, .executed (.storeRegisters x)⟩ a b ↔
      ∃ k, a = m.index.toNat + k ∧ (m.registers.toList.take (x + 1))[k]? = some b := by
  simp only [Machine.getElem?_take_registers]
  constructor
  · intro h
    cases h with
    | @register x j hdeed hj ha =>
        cases hdeed
        exact ⟨j, ha, j, hj, rfl, rfl⟩
    | reset hdeed | program hdeed | digit hdeed => cases hdeed
  · rintro ⟨k, ha, j, hj, rfl, rfl⟩
    exact .register rfl hj ha

theorem writes_digits_iff (m : Machine) (x : Fin 16) (a : Nat) (b : UInt8) :
    Writes ⟨m, .executed (.storeBcd x)⟩ a b ↔
      ∃ k, a = m.index.toNat + k ∧ (decimalDigits (m.v x))[k]? = some b := by
  simp only [Machine.getElem?_decimalDigits]
  constructor
  · intro h
    cases h with
    | digit hdeed hhundreds htens hones hsum hd ha =>
        cases hdeed
        exact ⟨_, ha, _, _, _, _, hhundreds, htens, hones, hsum, hd, rfl⟩
    | reset hdeed | program hdeed | register hdeed => cases hdeed
  · rintro ⟨k, ha, hundreds, tens, ones, d, hhundreds, htens, hones, hsum, hd, rfl⟩
    exact .digit rfl hhundreds htens hones hsum hd ha

/-- A written byte is there afterwards, and an address that is not written keeps its byte. -/
theorem read_after (t : Moment) {a : Nat} (ha : a < 4096) :
    (∀ b, t.Writes a b → t.after.memory.read a = b) ∧
      ((∀ b, ¬t.Writes a b) → t.after.memory.read a = t.before.memory.read a) := by
  obtain ⟨m, deed⟩ := t
  cases deed with
  | executed i =>
      have hadvance : (after ⟨m, .executed i⟩).memory = (m.effect i).memory := rfl
      rw [hadvance, Machine.memory_effect]
      cases i with
      | storeBcd x => exact m.memory.read_store_of_iff ha (writes_digits_iff m x a)
      | storeRegisters x => exact m.memory.read_store_of_iff ha (writes_registers_iff m x a)
      | _ => exact ⟨fun b h => absurd h.stores Bool.false_ne_true, fun _ => rfl⟩
  | loaded program => exact m.memory.read_store_of_iff ha (writes_program_iff m program a)
  | reset =>
      have hbyte := Machine.read_powerOn m.random ha
      refine ⟨fun b h => ?_, fun hnone => absurd (.reset rfl) (hnone _)⟩
      cases h with
      | reset => exact hbyte
      | program hdeed | register hdeed | digit hdeed => cases hdeed
  | _ => exact ⟨fun b h => absurd h.stores Bool.false_ne_true, fun _ => rfl⟩

end Moment

/-! ## Whole histories -/

/-- The byte that was written to the address last, where a new machine has the font and zeros. -/
def LastWrite (past : List Moment) (a : Nat) (b : UInt8) : Prop :=
  (∃ earlier t later, past = earlier ++ t :: later ∧ t.Writes a b ∧
      ∀ u ∈ later, ∀ c, ¬u.Writes a c) ∨
    (∀ t ∈ past, ∀ c, ¬t.Writes a c) ∧ b = powerOnByte a

theorem LastWrite.now {past : List Moment} {t : Moment} {a : Nat} {b : UInt8}
    (h : t.Writes a b) : LastWrite (past ++ [t]) a b :=
  Or.inl ⟨past, t, [], rfl, h, by simp⟩

theorem LastWrite.snoc {past : List Moment} {t : Moment} {a : Nat} {b : UInt8}
    (hpast : LastWrite past a b) (ht : ∀ c, ¬t.Writes a c) : LastWrite (past ++ [t]) a b := by
  have hsnoc : ∀ us : List Moment, (∀ u ∈ us, ∀ c, ¬u.Writes a c) →
      ∀ u ∈ us ++ [t], ∀ c, ¬u.Writes a c := by
    intro us hus
    exact List.forall_mem_append.2 ⟨hus, List.forall_mem_singleton.2 ht⟩
  rcases hpast with ⟨earlier, s, later, rfl, hs, hlater⟩ | ⟨hnone, rfl⟩
  · exact Or.inl ⟨earlier, s, later ++ [t], by simp, hs, hsnoc later hlater⟩
  · exact Or.inr ⟨hsnoc past hnone, rfl⟩

namespace Machine

theorem lastWrite_read (random : Random.Generator) (history : List Call) {a : Nat}
    (ha : a < 4096) :
    LastWrite ((powerOn random).timeline history) a
      (((powerOn random).after history).memory.read a) := by
  refine timeline_invariant (P := fun past m => LastWrite past a (m.memory.read a)) random ?_ ?_
    history
  · exact Or.inr ⟨by simp, read_powerOn random ha⟩
  · intro past m deed _ _ hpast
    obtain ⟨hwritten, hkept⟩ := Moment.read_after ⟨m, deed⟩ ha
    by_cases h : ∃ b, Moment.Writes ⟨m, deed⟩ a b
    · obtain ⟨b, hb⟩ := h
      have hread : (m.afterDeed deed).memory.read a = b := hwritten b hb
      rw [hread]
      exact .now hb
    · have hnone : ∀ b, ¬Moment.Writes ⟨m, deed⟩ a b := fun b hb => h ⟨b, hb⟩
      have hread : (m.afterDeed deed).memory.read a = m.memory.read a := hkept hnone
      rw [hread]
      exact hpast.snoc hnone

/-- After every history each address holds the byte that was written to it last. A deed that
writes there leaves just that byte, and any other leaves the byte as it was. -/
theorem read_is_last_write (random : Random.Generator) (history : List Call) (a : Fin 4096) :
    let m := (powerOn random).after history
    let past := (powerOn random).timeline history
    LastWrite past a (m.memory.read a) ∧
      ∀ t ∈ past, (∀ b, t.Writes a b → t.after.memory.read a = b) ∧
        ((∀ b, ¬t.Writes a b) → t.after.memory.read a = t.before.memory.read a) := by
  intro m past
  exact ⟨lastWrite_read random history a.isLt, fun t _ => t.read_after a.isLt⟩

end Machine

end Chip8
