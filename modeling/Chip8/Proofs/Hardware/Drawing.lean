import Chip8.Proofs.Hardware.Image

/-!
# The drawing loops

Both loops flip the cells of a region of the screen and raise the flag if one of these was lit.
Flips of disjoint regions add up, so the loops are followed region by region.
-/

namespace Chip8.Hardware

/-! ## Flipping a region -/

/-- The cell in column `x` and row `y`. -/
def cell (h : Hardware) (x y : Nat) : UInt8 := (h.display[y]?.bind fun row => row[x]?).getD 0

/-- Some cell where `p` holds is lit. -/
def Hits (h : Hardware) (p : Nat → Nat → Bool) : Prop :=
  ∃ x : Fin 64, ∃ y : Fin 32, p x y = true ∧ h.cell x y = 1

instance (h : Hardware) (p : Nat → Nat → Bool) : Decidable (h.Hits p) :=
  inferInstanceAs (Decidable (∃ x : Fin 64, ∃ y : Fin 32, p x y = true ∧ h.cell x y = 1))

/-- The display with the cells flipped where `p` holds. -/
def flipped (display : Vector (Vector UInt8 64) 32) (p : Nat → Nat → Bool) :
    Vector (Vector UInt8 64) 32 :=
  display.mapIdx fun y row => row.mapIdx fun x cell => if p x y then cell ^^^ 1 else cell

/-- The registers with the flag raised if some cell where `p` holds is lit. -/
def raised (h : Hardware) (p : Nat → Nat → Bool) : Vector UInt8 16 :=
  if h.Hits p then h.registers.setIfInBounds 15 1 else h.registers

def withScreen (h : Hardware) (registers : Vector UInt8 16)
    (display : Vector (Vector UInt8 64) 32) : Hardware :=
  { h with registers := registers, display := display }

def flipWhere (h : Hardware) (p : Nat → Nat → Bool) : Hardware :=
  h.withScreen (h.raised p) (flipped h.display p)

theorem withScreen_self (h : Hardware) : h.withScreen h.registers h.display = h := rfl

theorem withScreen_withScreen (h : Hardware) (registers registers' : Vector UInt8 16)
    (display display' : Vector (Vector UInt8 64) 32) :
    (h.withScreen registers display).withScreen registers' display' =
      h.withScreen registers' display' := rfl

theorem flipWhere_eq (h : Hardware) (p : Nat → Nat → Bool) :
    h.flipWhere p = h.withScreen (h.raised p) (flipped h.display p) := rfl

theorem registers_flipWhere (h : Hardware) (p : Nat → Nat → Bool) :
    (h.flipWhere p).registers = h.raised p := by
  rw [flipWhere, withScreen]

theorem display_flipWhere (h : Hardware) (p : Nat → Nat → Bool) :
    (h.flipWhere p).display = flipped h.display p := by
  rw [flipWhere, withScreen]

theorem memory_flipWhere (h : Hardware) (p : Nat → Nat → Bool) :
    (h.flipWhere p).memory = h.memory := by
  rw [flipWhere, withScreen]

theorem getElem_flipped (display : Vector (Vector UInt8 64) 32) (p : Nat → Nat → Bool) {x y : Nat}
    (hx : x < 64) (hy : y < 32) :
    (flipped display p)[y][x] = if p x y then display[y][x] ^^^ 1 else display[y][x] := by
  simp [flipped]

theorem cell_eq (h : Hardware) {x y : Nat} (hx : x < 64) (hy : y < 32) :
    h.cell x y = h.display[y][x] := by
  simp [cell, hx, hy]

theorem display_ext {a b : Vector (Vector UInt8 64) 32}
    (h : ∀ x y (hx : x < 64) (hy : y < 32), a[y][x] = b[y][x]) : a = b := by
  apply Vector.ext
  intro y hy
  apply Vector.ext
  intro x hx
  exact h x y hx hy

theorem cell_flipWhere (h : Hardware) (p : Nat → Nat → Bool) {x y : Nat} (hx : x < 64)
    (hy : y < 32) :
    (h.flipWhere p).cell x y = if p x y then h.cell x y ^^^ 1 else h.cell x y := by
  rw [cell_eq _ hx hy, cell_eq _ hx hy, ← getElem_flipped h.display p hx hy]
  simp only [display_flipWhere]

theorem flipWhere_eq_self (h : Hardware) {p : Nat → Nat → Bool}
    (hp : ∀ x y, x < 64 → y < 32 → p x y = false) : h.flipWhere p = h := by
  have hhits : ¬h.Hits p := by
    rintro ⟨x, y, hxy, -⟩
    simp [hp x y x.isLt y.isLt] at hxy
  have hdisplay : flipped h.display p = h.display := by
    apply display_ext
    intro x y hx hy
    simp [getElem_flipped, hp x y hx hy]
  rw [flipWhere_eq, raised, if_neg hhits, hdisplay, withScreen_self]

/-- Flipping two disjoint regions one after the other is flipping their union. -/
theorem flipWhere_flipWhere (h : Hardware) {p q r : Nat → Nat → Bool}
    (hdisjoint : ∀ x y, p x y = true → q x y = false)
    (hunion : ∀ x y, x < 64 → y < 32 → r x y = (p x y || q x y)) :
    (h.flipWhere p).flipWhere q = h.flipWhere r := by
  have hcell : ∀ (x : Fin 64) (y : Fin 32), q x y = true →
      (h.flipWhere p).cell x y = h.cell x y := by
    intro x y hq
    have hp : ¬p x y = true := fun hp => by simp [hdisjoint x y hp] at hq
    rw [cell_flipWhere h p x.isLt y.isLt, if_neg hp]
  have hhits : h.Hits r ↔ h.Hits p ∨ (h.flipWhere p).Hits q := by
    constructor
    · rintro ⟨x, y, hr, hlit⟩
      rw [hunion x y x.isLt y.isLt, Bool.or_eq_true] at hr
      rcases hr with hp | hq
      · exact Or.inl ⟨x, y, hp, hlit⟩
      · exact Or.inr ⟨x, y, hq, (hcell x y hq).trans hlit⟩
    · rintro (⟨x, y, hp, hlit⟩ | ⟨x, y, hq, hlit⟩)
      · exact ⟨x, y, by rw [hunion x y x.isLt y.isLt, hp, Bool.true_or], hlit⟩
      · refine ⟨x, y, by rw [hunion x y x.isLt y.isLt, hq, Bool.or_true], ?_⟩
        exact (hcell x y hq).symm.trans hlit
  have hdisplay : flipped (flipped h.display p) q = flipped h.display r := by
    apply display_ext
    intro x y hx hy
    rw [getElem_flipped _ q hx hy, getElem_flipped _ p hx hy, getElem_flipped _ r hx hy,
      hunion x y hx hy]
    cases hp : p x y with
    | true => simp [hdisjoint x y hp]
    | false => simp
  have hregisters : (h.flipWhere p).raised q = h.raised r := by
    rw [raised, raised, registers_flipWhere, raised]
    by_cases hq : (h.flipWhere p).Hits q
    · by_cases hp : h.Hits p
      · simp [hhits, hq, hp]
      · simp [hhits, hq, hp]
    · by_cases hp : h.Hits p
      · simp [hhits, hq, hp]
      · simp [hhits, hq, hp]
  rw [flipWhere_eq (h.flipWhere p), hregisters, display_flipWhere, hdisplay, flipWhere_eq h p,
    withScreen_withScreen, flipWhere_eq h r]

/-! ## A single cell -/

theorem hits_single (h : Hardware) {row column : Nat} (hrow : row < 32) (hcolumn : column < 64) :
    h.Hits (fun x y => x == column && y == row) ↔ h.display[row][column] = 1 := by
  rw [← cell_eq h hcolumn hrow]
  constructor
  · rintro ⟨x, y, hp, hlit⟩
    rw [Bool.and_eq_true, beq_iff_eq, beq_iff_eq] at hp
    rwa [← hp.1, ← hp.2]
  · intro hlit
    exact ⟨⟨column, hcolumn⟩, ⟨row, hrow⟩, by simp, hlit⟩

theorem flipped_single (display : Vector (Vector UInt8 64) 32) {row column : Nat} (hrow : row < 32)
    (hcolumn : column < 64) :
    flipped display (fun x y => x == column && y == row) =
      display.setIfInBounds row
        (display[row].setIfInBounds column (display[row][column] ^^^ 1)) := by
  apply display_ext
  intro x y hx hy
  rw [getElem_flipped _ _ hx hy]
  by_cases hy' : y = row
  · subst hy'
    by_cases hx' : x = column
    · subst hx'
      simp
    · simp [hx', Ne.symm hx']
  · simp [hy', Ne.symm hy']

theorem flip_apply (h : Hardware) {row column : Nat} (hrow : row < 32) (hcolumn : column < 64) :
    flip row column h = .done () (h.flipWhere fun x y => x == column && y == row) := by
  rw [flipWhere_eq, flipped_single _ hrow hcolumn, raised, withScreen]
  simp only [flip, bind_apply, look_apply, id_eq, entry_apply _ hrow, entry_apply _ hcolumn,
    if_apply, setRegister_apply _ (by decide : 15 < 16), withEntry_apply _ hrow,
    withEntry_apply _ hcolumn, change_apply]
  by_cases hlit : h.display[row][column] = 1
  · rw [if_pos hlit, if_pos ((hits_single h hrow hcolumn).2 hlit)]
  · rw [if_neg hlit, if_neg fun hit => hlit ((hits_single h hrow hcolumn).1 hit)]

/-! ## A row of a sprite -/

/-- The bit that is tested is a power of two. -/
theorem toBitVec_sample {bit : Nat} (h : bit < 8) :
    (0x80 >>> UInt8.ofNat bit : UInt8).toBitVec = BitVec.twoPow 8 (7 - bit) := by
  have hall : ∀ k : Fin 8,
      (0x80 >>> UInt8.ofNat k : UInt8).toBitVec = BitVec.twoPow 8 (7 - k.val) := by
    decide
  exact hall ⟨bit, h⟩

theorem and_sample_ne_zero_iff (byte : UInt8) {bit : Nat} (h : bit < 8) :
    byte &&& (0x80 >>> UInt8.ofNat bit) ≠ 0 ↔ byte.toBitVec.getMsbD bit = true := by
  have hpow : BitVec.twoPow 8 (7 - bit) ≠ 0 := by
    intro hzero
    have hbit := congrArg (fun w => w.getLsbD (7 - bit)) hzero
    simp [BitVec.getLsbD_twoPow] at hbit
    omega
  rw [ne_eq, ← UInt8.toBitVec_inj, UInt8.toBitVec_and, toBitVec_sample h, BitVec.and_twoPow,
    BitVec.getMsbD_eq_getLsbD]
  by_cases hbit : byte.toBitVec.getLsbD (7 - bit)
  · simpa [hbit, h] using hpow
  · simp [hbit]

/-- The pixels of a sprite row from bit number `bit` on. -/
def rowFrom (row column : Nat) (byte : UInt8) (bit x y : Nat) : Bool :=
  y == row && column + bit ≤ x && byte.toBitVec.getMsbD (x - column)

theorem rowFrom_eq_false {row column bit x y : Nat} {byte : UInt8} (hx : x < column + bit) :
    rowFrom row column byte bit x y = false := by
  have hleft : ¬column + bit ≤ x := Nat.not_le_of_lt hx
  simp [rowFrom, hleft]

theorem rowFrom_eight (row column : Nat) (byte : UInt8) (x y : Nat) :
    rowFrom row column byte 8 x y = false := by
  by_cases hx : x < column + 8
  · exact rowFrom_eq_false hx
  · have hout : 8 ≤ x - column := by omega
    simp [rowFrom, BitVec.getMsbD_of_ge _ _ hout]

theorem rowFrom_succ (row column : Nat) (byte : UInt8) (bit x y : Nat) :
    rowFrom row column byte bit x y =
      (byte.toBitVec.getMsbD bit && (x == column + bit && y == row) ||
        rowFrom row column byte (bit + 1) x y) := by
  rcases Nat.lt_trichotomy x (column + bit) with hx | rfl | hx
  · have hx' : x < column + (bit + 1) := by omega
    simp [rowFrom_eq_false hx, rowFrom_eq_false hx', Nat.ne_of_lt hx]
  · have hx' : column + bit < column + (bit + 1) := by omega
    rw [rowFrom_eq_false hx']
    simp [rowFrom, Bool.and_comm]
  · have hx' : column + (bit + 1) ≤ x := by omega
    simp [rowFrom, hx', Nat.le_of_lt hx, Nat.ne_of_gt hx]

theorem drawBits_apply (h : Hardware) {row column bit left : Nat} (byte : UInt8) (hrow : row < 32)
    (hcolumn : column < 64) (hbits : bit + left = 8) :
    drawBits row column byte bit left h = .done () (h.flipWhere (rowFrom row column byte bit)) := by
  -- The pixel of this bit and those of the bits behind it are disjoint regions.
  induction left generalizing bit h with
  | zero =>
      obtain rfl : bit = 8 := hbits
      rw [flipWhere_eq_self h fun x y _ _ => rowFrom_eight row column byte x y]
      rfl
  | succ left ih =>
      have hbit : bit < 8 := by omega
      have hfits : column + bit < sizeValues := lt_sizeValues (by omega)
      rw [drawBits, bind_apply, sum_apply hfits]
      simp only [if_apply]
      by_cases hedge : 64 ≤ column + bit
      · rw [if_pos hedge, flipWhere_eq_self h fun x y hx _ => rowFrom_eq_false (by omega)]
        rfl
      · rw [if_neg hedge, bind_apply, demand_apply hbit]
        have hx : column + bit < 64 := Nat.lt_of_not_le hedge
        simp only [if_apply, and_sample_ne_zero_iff byte hbit]
        by_cases hset : byte.toBitVec.getMsbD bit = true
        · have hunion : (h.flipWhere fun x y => x == column + bit && y == row).flipWhere
              (rowFrom row column byte (bit + 1)) = h.flipWhere (rowFrom row column byte bit) := by
            apply flipWhere_flipWhere h
            · intro x y hxy
              rw [Bool.and_eq_true, beq_iff_eq, beq_iff_eq] at hxy
              exact rowFrom_eq_false (by omega)
            · intro x y _ _
              rw [rowFrom_succ, hset, Bool.true_and]
          rw [if_pos hset, bind_apply, flip_apply h hrow hx, ← hunion]
          exact ih _ (by omega)
        · have hsame : rowFrom row column byte bit = rowFrom row column byte (bit + 1) := by
            funext x y
            rw [rowFrom_succ, Bool.eq_false_iff.2 hset, Bool.false_and, Bool.false_or]
          rw [if_neg hset, hsame]
          exact ih h (by omega)

/-! ## A whole sprite -/

/-- The pixels of a sprite from its row number `k` on. -/
def spriteFrom (s : Sprite) (k x y : Nat) : Bool := decide (s.row + k ≤ y) && s.covers x y

theorem spriteFrom_eq_false (s : Sprite) {k x y : Nat} (hy : y < s.row + k) :
    spriteFrom s k x y = false := by
  have hleft : ¬s.row + k ≤ y := Nat.not_le_of_lt hy
  simp [spriteFrom, hleft]

theorem spriteFrom_length (s : Sprite) (x y : Nat) : spriteFrom s s.bytes.length x y = false := by
  by_cases hy : y < s.row + s.bytes.length
  · exact spriteFrom_eq_false s hy
  · have hout : s.bytes.length ≤ y - s.row := by omega
    simp [spriteFrom, Sprite.covers, hout]

theorem spriteFrom_zero (s : Sprite) : spriteFrom s 0 = s.covers := by
  funext x y
  by_cases hy : s.row ≤ y
  · simp [spriteFrom, hy]
  · simp [spriteFrom, Sprite.covers, hy]

theorem spriteFrom_succ (s : Sprite) {k : Nat} {byte : UInt8} (hbyte : s.bytes[k]? = some byte)
    (x y : Nat) :
    spriteFrom s k x y =
      (rowFrom (s.row + k) s.column byte 0 x y || spriteFrom s (k + 1) x y) := by
  rcases Nat.lt_trichotomy y (s.row + k) with hy | rfl | hy
  · have hy' : y < s.row + (k + 1) := by omega
    simp [spriteFrom_eq_false s hy, spriteFrom_eq_false s hy', rowFrom, Nat.ne_of_lt hy]
  · have hy' : s.row + k < s.row + (k + 1) := by omega
    rw [spriteFrom_eq_false s hy']
    simp [spriteFrom, Sprite.covers, rowFrom, hbyte]
  · have hy' : s.row + (k + 1) ≤ y := by omega
    simp [spriteFrom, rowFrom, hy', Nat.le_of_lt hy, Nat.ne_of_gt hy]

theorem drawRows_apply (h : Hardware) (s : Sprite) {base k left : Nat} (hrow : s.row < 32)
    (hcolumn : s.column < 64) (hlength : k + left = s.bytes.length)
    (hbytes : ∀ i < s.bytes.length, h.memory[base + i]? = s.bytes[i]?) :
    drawRows base s.row s.column k left h = .done () (h.flipWhere (spriteFrom s k)) := by
  -- Drawing changes no memory, so the bytes of the rows that are left stay where they are.
  induction left generalizing k h with
  | zero =>
      obtain rfl : k = s.bytes.length := hlength
      rw [flipWhere_eq_self h fun x y _ _ => spriteFrom_length s x y]
      rfl
  | succ left ih =>
      have hk : k < s.bytes.length := by omega
      have hbyte : h.memory[base + k]? = some s.bytes[k] := by
        rw [hbytes k hk, List.getElem?_eq_getElem hk]
      obtain ⟨hbase, hbyte⟩ := Vector.getElem?_eq_some_iff.1 hbyte
      have hin : base + k < 4096 := hbase
      have hfits : base + k < sizeValues := lt_sizeValues (by omega)
      have hrows : s.row + k < sizeValues := lt_sizeValues (by omega)
      rw [drawRows, bind_apply, sum_apply hrows]
      simp only [if_apply]
      by_cases hedge : 32 ≤ s.row + k
      · rw [if_pos hedge, flipWhere_eq_self h fun x y _ hy => spriteFrom_eq_false s (by omega)]
        rfl
      · have hy : s.row + k < 32 := Nat.lt_of_not_le hedge
        have hunion : (h.flipWhere (rowFrom (s.row + k) s.column s.bytes[k] 0)).flipWhere
            (spriteFrom s (k + 1)) = h.flipWhere (spriteFrom s k) := by
          apply flipWhere_flipWhere h
          · intro x y hxy
            apply spriteFrom_eq_false
            simp only [rowFrom, Bool.and_eq_true, beq_iff_eq] at hxy
            omega
          · intro x y _ _
            exact spriteFrom_succ s (List.getElem?_eq_getElem hk) x y
        rw [if_neg hedge]
        simp only [bind_apply, sum_apply hfits, look_apply, id_eq, entry_apply _ hbase, hbyte,
          drawBits_apply h _ hy hcolumn (Nat.zero_add 8)]
        rw [← hunion]
        exact ih _ (by omega) (by rwa [memory_flipWhere])

end Chip8.Hardware
