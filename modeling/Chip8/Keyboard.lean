import Chip8.Keypad

/-!
# Keyboard layout

The left block of a computer keyboard stands for the sixteen keys, row by row.

```text
keys           keyboard
1 2 3 C        1 2 3 4
4 5 6 D        Q W E R
7 8 9 E        A S D F
A 0 B F        Z X C V
```
-/

namespace Chip8.Keyboard

/-- The names of the keyboard keys that stand for the keys 0 to F. -/
def layout : Vector String Keypad.keyCount :=
  #v["X", "Num1", "Num2", "Num3",
     "Q", "W", "E", "A",
     "S", "D", "Z", "C",
     "Num4", "R", "F", "V"]

/-- The key that the named keyboard key stands for, if it is bound. -/
def key? (name : String) : Option (Fin Keypad.keyCount) :=
  layout.findFinIdx? (· == name)

/-- Every key is bound once: to the name at its place in the layout. -/
theorem key?_eq_some_iff (name : String) (k : Fin Keypad.keyCount) :
    key? name = some k ↔ name = layout[k] := by
  have hdistinct : ∀ j k : Fin Keypad.keyCount, layout[j] = layout[k] → j = k := by decide
  rw [key?, Keypad.findFinIdx?_eq_some_iff, beq_iff_eq, eq_comm]
  constructor
  · exact And.left
  · intro hname
    refine ⟨hname, fun j hj => ?_⟩
    rw [hname, beq_eq_false_iff_ne]
    intro hsame
    exact Fin.ne_of_lt hj (hdistinct j k hsame)

theorem key?_eq_none_iff (name : String) : key? name = none ↔ name ∉ layout := by
  rw [key?, Vector.findFinIdx?_eq_none_iff]
  constructor
  · intro h hname
    exact h name hname (beq_self_eq_true name)
  · rintro h bound hbound hname
    rw [eq_of_beq hname] at hbound
    exact h hbound

end Chip8.Keyboard
