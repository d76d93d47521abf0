/-!
# Hexadecimal text

Upper-case hexadecimal numerals, filled with zeros on the left up to a least number of digits.
A number that needs more digits than that is written in full.
-/

namespace Chip8.Hex

/-- The hexadecimal digits of `n`, most significant first and without leading zeros. -/
def digits (n : Nat) : List Char :=
  (Nat.toDigits 16 n).map Char.toUpper

/-- The numeral of `n` with at least `width` digits. -/
def padded (width n : Nat) : String :=
  String.ofList ((digits n).leftpad width '0')

/-! ## Digits -/

theorem digits_of_lt {n : Nat} (h : n < 16) : digits n = [n.digitChar.toUpper] := by
  rw [digits, Nat.toDigits_of_lt_base h, List.map_singleton]

theorem digits_of_le {n : Nat} (h : 16 ≤ n) : digits n = digits (n / 16) ++ digits (n % 16) := by
  have hlast : n % 16 < 16 := Nat.mod_lt n (by decide)
  rw [digits, Nat.toDigits_eq_if (by decide), if_neg (Nat.not_lt.2 h), List.map_append,
    digits_of_lt hlast, digits, List.map_singleton]

/-- The last digit of a numeral stands behind the numeral of the digits in front of it. -/
theorem padded_succ {width : Nat} (hwidth : 0 < width) (n : Nat) :
    padded (width + 1) n = padded width (n / 16) ++ padded 1 (n % 16) := by
  have hlast : n % 16 < 16 := Nat.mod_lt n (by decide)
  have hone : padded 1 (n % 16) = String.ofList (digits (n % 16)) := by
    simp [padded, digits_of_lt hlast, List.leftpad]
  rw [hone, padded, padded, ← String.ofList_append]
  congr 1
  by_cases h : n < 16
  · -- a single digit, which only zeros stand in front of
    obtain ⟨width, rfl⟩ : ∃ k, width = k + 1 := ⟨width - 1, by omega⟩
    rw [Nat.div_eq_of_lt h, Nat.mod_eq_of_lt h, digits_of_lt h, digits_of_lt (by decide)]
    simp [List.leftpad, List.replicate_succ']
    rfl
  · rw [digits_of_le (Nat.le_of_not_lt h), digits_of_lt hlast]
    simp [List.leftpad]

/-- The numeral of a word is that of its high byte followed by that of its low byte. -/
theorem padded_word (high : Nat) {low : Nat} (hlow : low < 256) :
    padded 4 (256 * high + low) = padded 2 high ++ padded 2 low := by
  have hhigh : (256 * high + low) / 16 / 16 = high := by omega
  have hmiddle : (256 * high + low) / 16 % 16 = low / 16 := by omega
  have hlast : (256 * high + low) % 16 = low % 16 := by omega
  rw [padded_succ (by decide), padded_succ (by decide), padded_succ Nat.one_pos low, hhigh,
    hmiddle, hlast, String.append_assoc]

end Chip8.Hex
