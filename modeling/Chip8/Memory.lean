/-!
# Memory

4096 bytes. A read behind the last byte gives zero and a write there is dropped, so both are
total. The main statement is `read_store`: what a stored range leaves at every address.
-/

namespace Chip8

abbrev Memory.size : Nat := 4096

structure Memory where
  bytes : Vector UInt8 Memory.size
  deriving DecidableEq

namespace Memory

def zero : Memory := ⟨Vector.replicate size 0⟩

def read (m : Memory) (a : Nat) : UInt8 := m.bytes[a]?.getD 0

def write (m : Memory) (a : Nat) (b : UInt8) : Memory := ⟨m.bytes.setIfInBounds a b⟩

/-- Write a list of bytes from `base` on. -/
def store (m : Memory) (base : Nat) : List UInt8 → Memory
  | [] => m
  | b :: rest => (m.write base b).store (base + 1) rest

/-- The `len` bytes from `base` on. -/
def slice (m : Memory) (base len : Nat) : List UInt8 :=
  (List.range len).map fun i => m.read (base + i)

/-! ## What is read -/

@[simp] theorem read_zero (a : Nat) : zero.read a = 0 := by
  by_cases h : a < 4096 <;> simp [read, zero, h]

theorem getElem?_toList (m : Memory) {a : Nat} (h : a < 4096) :
    m.bytes.toList[a]? = some (m.read a) := by
  simp [read, h]

/-- Two memories with the same bytes are the same. -/
theorem ext_read {m n : Memory} (h : ∀ a < 4096, m.read a = n.read a) : m = n := by
  have hbytes : m.bytes = n.bytes := by
    apply Vector.ext
    intro a ha
    have := h a ha
    simpa only [read, Vector.getElem?_eq_getElem ha, Option.getD_some] using this
  cases m
  cases n
  cases hbytes
  rfl

theorem read_write (m : Memory) (a : Nat) (b : UInt8) (c : Nat) :
    (m.write a b).read c = if c = a ∧ a < 4096 then b else m.read c := by
  by_cases ha : a < 4096
  · by_cases hc : c = a
    · subst hc
      simp [read, write, ha]
    · simp [read, write, hc, Vector.getElem?_setIfInBounds_ne (Ne.symm hc)]
  · simp [write, Vector.setIfInBounds_eq_of_size_le (Nat.le_of_not_lt ha), ha]

/-- A stored range holds the stored bytes as far as memory reaches, and all else is kept. -/
theorem read_store (m : Memory) (base : Nat) (bytes : List UInt8) (a : Nat) :
    (m.store base bytes).read a =
      if base ≤ a ∧ a < base + bytes.length ∧ a < 4096 then bytes[a - base]?.getD 0
      else m.read a := by
  induction bytes generalizing m base with
  | nil =>
      have hempty : ¬(base ≤ a ∧ a < base + 0 ∧ a < 4096) := by omega
      exact (if_neg hempty).symm
  | cons b rest ih =>
      rw [store, ih, read_write, List.length_cons]
      rcases Nat.lt_trichotomy a base with hlt | rfl | hgt
      · have hrest : ¬(base + 1 ≤ a ∧ a < base + 1 + rest.length ∧ a < 4096) := by omega
        have hall : ¬(base ≤ a ∧ a < base + (rest.length + 1) ∧ a < 4096) := by omega
        have hhere : ¬(a = base ∧ base < 4096) := by omega
        rw [if_neg hrest, if_neg hall, if_neg hhere]
      · have hrest : ¬(a + 1 ≤ a ∧ a < a + 1 + rest.length ∧ a < 4096) := by omega
        rw [if_neg hrest]
        simp
      · obtain ⟨k, rfl⟩ : ∃ k, a = base + (k + 1) := ⟨a - base - 1, by omega⟩
        have hhere : ¬(base + (k + 1) = base ∧ base < 4096) := by omega
        have hindex : base + (k + 1) - (base + 1) = k := by omega
        rw [if_neg hhere, hindex, Nat.add_sub_cancel_left, List.getElem?_cons_succ]
        congr 1
        simp only [eq_iff_iff]
        omega

@[simp] theorem length_slice (m : Memory) (base len : Nat) : (m.slice base len).length = len := by
  simp [slice]

theorem getElem?_slice (m : Memory) (base : Nat) {len i : Nat} (h : i < len) :
    (m.slice base len)[i]? = some (m.read (base + i)) := by
  simp [slice, h]

end Memory

end Chip8
