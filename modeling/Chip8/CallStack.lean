/-!
# The call stack

Sixteen slots, of which the first `depth` hold the addresses of the pending calls, the latest one
last. A pop leaves its slot as it is; `toList` shows the pending calls only, and it is what the
statements below are about.
-/

namespace Chip8

abbrev CallStack.capacity : Nat := 16

structure CallStack where
  slots : Vector UInt16 CallStack.capacity
  depth : Nat
  deriving DecidableEq

namespace CallStack

def empty : CallStack := ⟨Vector.replicate capacity 0, 0⟩

def push (s : CallStack) (a : UInt16) : CallStack :=
  ⟨s.slots.setIfInBounds s.depth a, s.depth + 1⟩

def pop (s : CallStack) : CallStack := ⟨s.slots, s.depth - 1⟩

/-- The latest pending call. -/
def top (s : CallStack) : UInt16 := s.slots[s.depth - 1]?.getD 0

/-- The pending calls, the latest one last. -/
def toList (s : CallStack) : List UInt16 := s.slots.toList.take s.depth

theorem length_toList (s : CallStack) (h : s.depth ≤ 16) : s.toList.length = s.depth := by
  simp [toList, h]

theorem toList_push (s : CallStack) (a : UInt16) (h : s.depth < 16) :
    (s.push a).toList = s.toList ++ [a] := by
  apply List.ext_getElem?
  intro i
  have hlen : s.toList.length = s.depth := s.length_toList (Nat.le_of_lt h)
  rcases Nat.lt_trichotomy i s.depth with hi | hi | hi
  · rw [List.getElem?_append_left (by omega)]
    simp [toList, push, hi, Nat.lt_succ_of_lt hi, List.getElem?_set_ne (Nat.ne_of_gt hi)]
  · subst hi
    simp [toList, push, h, Nat.le_of_lt h]
  · rw [List.getElem?_eq_none, List.getElem?_eq_none] <;> simp [toList, push] <;> omega

theorem toList_pop (s : CallStack) (h : s.depth ≤ 16) : s.pop.toList = s.toList.dropLast := by
  simp [toList, pop, List.dropLast_eq_take, List.take_take, Nat.min_eq_left h]

theorem getLast?_toList (s : CallStack) (h : s.depth ≤ 16) (hpos : 0 < s.depth) :
    s.toList.getLast? = some s.top := by
  have htaken : s.depth - 1 < s.depth := by omega
  have hslot : s.depth - 1 < 16 := by omega
  simp [top, toList, List.getLast?_eq_getElem?, Nat.min_eq_left h, htaken, hslot]

end CallStack

end Chip8
