import Chip8.Hex

/-!
# Reading texts

A text is read from the left. A run of letters or digits ends where a character of another kind
follows, a numeral gives back its number, and a list that is written with commas falls apart at
these into its entries.
-/

namespace Chip8

/-! ## Runs of characters -/

/-- Where a run of characters that satisfy `p` ends, the text is cut in one way only. -/
theorem append_inj_of_run {p : Char → Bool} {a b s t : String}
    (ha : ∀ c ∈ a.toList, p c = true) (hb : ∀ c ∈ b.toList, p c = true)
    (hs : s.toList.takeWhile p = []) (ht : t.toList.takeWhile p = []) :
    a ++ s = b ++ t ↔ a = b ∧ s = t := by
  refine ⟨fun h => ?_, fun ⟨hab, hst⟩ => by rw [hab, hst]⟩
  have hread : ∀ u v : String, (∀ c ∈ u.toList, p c = true) → v.toList.takeWhile p = [] →
      (u ++ v).toList.takeWhile p = u.toList := by
    intro u v hu hv
    rw [String.toList_append, List.takeWhile_append_of_pos hu, hv, List.append_nil]
  have hruns : a.toList = b.toList := by rw [← hread a s ha hs, h, hread b t hb ht]
  obtain rfl : a = b := String.toList_inj.1 hruns
  exact ⟨rfl, (String.append_right_inj _).1 h⟩

theorem bne_of_isAlphanum (mark : Char) (hmark : mark.isAlphanum = false) (c : Char)
    (hc : c.isAlphanum = true) : (c != mark) = true := by
  rw [bne_iff_ne]
  rintro rfl
  exact Bool.false_ne_true (hmark.symm.trans hc)

/-! ## Hexadecimal numerals -/

namespace Hex

/-- The number for which an upper-case digit stands. -/
def digitValue (c : Char) : Nat := if c.isDigit then c.toNat - 48 else c.toNat - 55

/-- The number that is written with these digits. -/
def value (cs : List Char) : Nat := cs.foldl (fun n c => 16 * n + digitValue c) 0

theorem digitValue_digitChar {n : Nat} (h : n < 16) : digitValue n.digitChar.toUpper = n := by
  have hall : ∀ d : Fin 16, digitValue d.val.digitChar.toUpper = d := by decide
  exact hall ⟨n, h⟩

theorem isAlphanum_digitChar {n : Nat} (h : n < 16) : n.digitChar.toUpper.isAlphanum = true := by
  have hall : ∀ d : Fin 16, d.val.digitChar.toUpper.isAlphanum = true := by decide
  exact hall ⟨n, h⟩

theorem value_append_singleton (cs : List Char) (c : Char) :
    value (cs ++ [c]) = 16 * value cs + digitValue c := by
  simp [value]

theorem value_digits (n : Nat) : value (digits n) = n := by
  induction n using Nat.strongRecOn with
  | ind n ih =>
      rcases Nat.lt_or_ge n 16 with hn | hn
      · rw [digits_of_lt hn, ← List.nil_append [_], value_append_singleton, digitValue_digitChar hn]
        exact Nat.zero_add n
      · have hlast : n % 16 < 16 := Nat.mod_lt n (by decide)
        have hfront : value (digits (n / 16)) = n / 16 := ih _ (by omega)
        rw [digits_of_le hn, digits_of_lt hlast, value_append_singleton, hfront,
          digitValue_digitChar hlast]
        omega

theorem isAlphanum_of_mem_digits (n : Nat) : ∀ c ∈ digits n, c.isAlphanum = true := by
  induction n using Nat.strongRecOn with
  | ind n ih =>
      rcases Nat.lt_or_ge n 16 with hn | hn
      · rw [digits_of_lt hn, List.forall_mem_singleton]
        exact isAlphanum_digitChar hn
      · have hlast : n % 16 < 16 := Nat.mod_lt n (by decide)
        rw [digits_of_le hn, digits_of_lt hlast, List.forall_mem_append, List.forall_mem_singleton]
        exact ⟨ih _ (by omega), isAlphanum_digitChar hlast⟩

theorem value_leftpad (width : Nat) (cs : List Char) : value (cs.leftpad width '0') = value cs := by
  rw [List.leftpad]
  induction width - cs.length with
  | zero => rfl
  | succ k ih => exact ih

/-- A numeral reads back as its number, whatever its width. -/
theorem value_padded (width n : Nat) : value (padded width n).toList = n := by
  rw [padded, String.toList_ofList, value_leftpad, value_digits]

theorem isAlphanum_of_mem_padded (width n : Nat) :
    ∀ c ∈ (padded width n).toList, c.isAlphanum = true := by
  rw [padded, String.toList_ofList, List.leftpad, List.forall_mem_append]
  refine ⟨fun c hc => ?_, isAlphanum_of_mem_digits n⟩
  rw [List.eq_of_mem_replicate hc]
  decide

theorem padded_inj {width m n : Nat} : padded width m = padded width n ↔ m = n := by
  refine ⟨fun h => ?_, fun h => by rw [h]⟩
  rw [← value_padded width m, h, value_padded]

theorem padded_append_inj {width m n : Nat} {s t : String}
    (hs : s.toList.takeWhile Char.isAlphanum = []) (ht : t.toList.takeWhile Char.isAlphanum = []) :
    padded width m ++ s = padded width n ++ t ↔ m = n ∧ s = t := by
  rw [append_inj_of_run (isAlphanum_of_mem_padded width m) (isAlphanum_of_mem_padded width n) hs ht,
    padded_inj]

end Hex

/-! ## Decimal numerals -/

theorem isDigit_of_mem_toString (n : Nat) : ∀ c ∈ (toString n).toList, c.isDigit = true := by
  rw [Nat.toString_eq_repr, Nat.toList_repr]
  exact fun c hc => Nat.isDigit_of_mem_toDigits (by decide) (by decide) hc

theorem isAlphanum_of_mem_toString (n : Nat) : ∀ c ∈ (toString n).toList, c.isAlphanum = true := by
  intro c hc
  rw [Char.isAlphanum, isDigit_of_mem_toString n c hc, Bool.or_true]

theorem toString_inj {m n : Nat} : toString m = toString n ↔ m = n := by
  refine ⟨fun h => ?_, fun h => by rw [h]⟩
  have hread : ∀ k : Nat, Nat.ofDigitChars 10 (toString k).toList 0 = k := by
    intro k
    rw [Nat.toString_eq_repr, Nat.toList_repr, Nat.ofDigitChars_ten_toDigits]
  rw [← hread m, h, hread n]

/-- A decimal numeral ends where a character follows that is no digit, so the number before it and
the text behind it can be told apart. -/
theorem toString_append_inj {m n : Nat} {s t : String}
    (hs : s.toList.takeWhile Char.isDigit = []) (ht : t.toList.takeWhile Char.isDigit = []) :
    toString m ++ s = toString n ++ t ↔ m = n ∧ s = t := by
  rw [append_inj_of_run (isDigit_of_mem_toString m) (isDigit_of_mem_toString n) hs ht,
    toString_inj]

/-! ## Lists with commas -/

/-- What follows the first entry of a list that is written with commas. -/
def commaTail : List String → String
  | [] => ""
  | s :: rest => ", " ++ ", ".intercalate (s :: rest)

theorem intercalate_cons_eq (s : String) (rest : List String) :
    ", ".intercalate (s :: rest) = s ++ commaTail rest := by
  cases rest with
  | nil => rw [String.intercalate_singleton, commaTail, String.append_empty]
  | cons t rest => rw [String.intercalate_cons_cons, String.append_assoc, commaTail]

theorem takeWhile_commaTail (rest : List String) :
    (commaTail rest).toList.takeWhile (· != ',') = [] := by
  cases rest with
  | nil => rfl
  | cons t rest => simp [commaTail]

theorem intercalate_inj {l l' : List String} (hl : ∀ s ∈ l, ∀ c ∈ s.toList, (c != ',') = true)
    (hl' : ∀ s ∈ l', ∀ c ∈ s.toList, (c != ',') = true) (hne : l ≠ []) (hne' : l' ≠ [])
    (h : ", ".intercalate l = ", ".intercalate l') : l = l' := by
  induction l generalizing l' with
  | nil => exact absurd rfl hne
  | cons s rest ih =>
      cases l' with
      | nil => exact absurd rfl hne'
      | cons s' rest' =>
          rw [List.forall_mem_cons] at hl hl'
          rw [intercalate_cons_eq, intercalate_cons_eq, append_inj_of_run hl.1 hl'.1
            (takeWhile_commaTail rest) (takeWhile_commaTail rest')] at h
          obtain ⟨rfl, htail⟩ := h
          cases rest with
          | nil =>
              cases rest' with
              | nil => rfl
              | cons _ _ => simp [commaTail] at htail
          | cons _ _ =>
              cases rest' with
              | nil => simp [commaTail] at htail
              | cons _ _ =>
                  rw [commaTail, commaTail, String.append_right_inj] at htail
                  have hrest := ih hl.2 hl'.2 (List.cons_ne_nil _ _) (List.cons_ne_nil _ _) htail
                  rw [hrest]

theorem forall_mem_intercalate {p : Char → Bool} {sep : String} {l : List String}
    (hsep : ∀ c ∈ sep.toList, p c = true) (hl : ∀ s ∈ l, ∀ c ∈ s.toList, p c = true) :
    ∀ c ∈ (sep.intercalate l).toList, p c = true := by
  induction l with
  | nil => simp
  | cons s rest ih =>
      rw [List.forall_mem_cons] at hl
      cases rest with
      | nil =>
          rw [String.intercalate_singleton]
          exact hl.1
      | cons t rest =>
          rw [String.intercalate_cons_cons, String.toList_append, String.toList_append,
            List.forall_mem_append, List.forall_mem_append]
          exact ⟨⟨hl.1, hsep⟩, ih hl.2⟩

end Chip8
