/-!
# The keypad

Which of the sixteen keys are down. A number above fifteen is no key: it is never down, and
pressing or releasing it does nothing.
-/

namespace Chip8

abbrev Keypad.keyCount : Nat := 16

structure Keypad where
  keys : Vector Bool Keypad.keyCount
  deriving DecidableEq

namespace Keypad

def released : Keypad := ⟨Vector.replicate keyCount false⟩

def isPressed (p : Keypad) (key : UInt8) : Bool := p.keys[key.toNat]?.getD false

def press (p : Keypad) (key : UInt8) : Keypad := ⟨p.keys.setIfInBounds key.toNat true⟩

def release (p : Keypad) (key : UInt8) : Keypad := ⟨p.keys.setIfInBounds key.toNat false⟩

/-- The lowest key that is down. -/
def lowest? (p : Keypad) : Option (Fin 16) := p.keys.findFinIdx? id

theorem isPressed_released (key : UInt8) : released.isPressed key = false := by
  by_cases h : key.toNat < 16 <;> simp [isPressed, released, h]

theorem isPressed_of_le (p : Keypad) {key : UInt8} (h : 16 ≤ key.toNat) :
    p.isPressed key = false := by
  simp [isPressed, h]

theorem isPressed_setIfInBounds (p : Keypad) (key : UInt8) (down : Bool) (k : UInt8) :
    isPressed ⟨p.keys.setIfInBounds key.toNat down⟩ k =
      if k = key ∧ key.toNat < 16 then down else p.isPressed k := by
  by_cases h : key.toNat < 16
  · by_cases hk : k = key
    · subst hk
      simp [isPressed, h]
    · have : key.toNat ≠ k.toNat := fun e => hk (UInt8.toNat_inj.1 e.symm)
      simp [isPressed, hk, Vector.getElem?_setIfInBounds_ne this]
  · simp [isPressed, Vector.setIfInBounds_eq_of_size_le (Nat.le_of_not_lt h), h]

theorem isPressed_press (p : Keypad) (key k : UInt8) :
    (p.press key).isPressed k = if k = key ∧ key.toNat < 16 then true else p.isPressed k :=
  p.isPressed_setIfInBounds key true k

theorem isPressed_release (p : Keypad) (key k : UInt8) :
    (p.release key).isPressed k = if k = key ∧ key.toNat < 16 then false else p.isPressed k :=
  p.isPressed_setIfInBounds key false k

theorem findFinIdx?_eq_some_iff {α : Type} {n : Nat} (xs : Vector α n) (p : α → Bool) (k : Fin n) :
    xs.findFinIdx? p = some k ↔ p xs[k] = true ∧ ∀ j : Fin n, j < k → p xs[j] = false := by
  obtain ⟨xs, rfl⟩ := xs
  simp [Array.findFinIdx?_eq_some_iff]

theorem findFinIdx?_id_eq_none_iff {n : Nat} (keys : Vector Bool n) :
    keys.findFinIdx? id = none ↔ ∀ k : Fin n, keys[k] = false := by
  obtain ⟨keys, rfl⟩ := keys
  simp [Array.findFinIdx?_eq_none_iff, Array.mem_iff_getElem, Fin.forall_iff]

theorem lowest?_eq_some_iff (p : Keypad) (k : Fin 16) :
    p.lowest? = some k ↔ p.keys[k] = true ∧ ∀ j : Fin 16, j < k → p.keys[j] = false :=
  findFinIdx?_eq_some_iff p.keys id k

theorem lowest?_eq_none_iff (p : Keypad) :
    p.lowest? = none ↔ ∀ k : Fin 16, p.keys[k] = false :=
  findFinIdx?_id_eq_none_iff p.keys

/-! ## Key numbers -/

theorem toNat_ofNat_key (k : Fin 16) : (UInt8.ofNat k).toNat = k :=
  UInt8.toNat_ofNat_of_lt' (Nat.lt_trans k.isLt (by decide))

theorem isPressed_ofNat (p : Keypad) (k : Fin 16) : p.isPressed (.ofNat k) = p.keys.get k := by
  have hget : p.keys[k.val]? = some (p.keys.get k) := Vector.getElem?_eq_getElem k.isLt
  rw [isPressed, toNat_ofNat_key, hget, Option.getD_some]

theorem lt_of_isPressed {p : Keypad} {key : UInt8} (h : p.isPressed key = true) :
    key.toNat < 16 := by
  apply Nat.lt_of_not_le
  intro hkey
  rw [p.isPressed_of_le hkey] at h
  exact Bool.false_ne_true h

theorem lowest?_eq_none_iff_isPressed (p : Keypad) :
    p.lowest? = none ↔ ∀ key, p.isPressed key = false := by
  rw [lowest?_eq_none_iff]
  constructor
  · intro h key
    apply Bool.eq_false_iff.2
    intro hpressed
    have hkey : key.toNat < 16 := lt_of_isPressed hpressed
    have hdown : p.keys[key.toNat] = true := by simpa [isPressed, hkey] using hpressed
    exact Bool.false_ne_true ((h ⟨key.toNat, hkey⟩).symm.trans hdown)
  · exact fun h k => (p.isPressed_ofNat k).symm.trans (h (.ofNat k))

theorem exists_isPressed (p : Keypad) (h : p.lowest? ≠ none) :
    ∃ key, p.isPressed key = true := by
  cases hkey : p.lowest? with
  | none => exact absurd hkey h
  | some k => exact ⟨.ofNat k, (p.isPressed_ofNat k).trans ((p.lowest?_eq_some_iff k).1 hkey).1⟩

end Keypad

end Chip8
