import Chip8.Event
import Chip8.Machine.Basic

/-!
# Actions on the hardware

The hardware holds plain arrays and a display of byte cells, and it is changed by one access after
the other. An access outside of an array and a sum, difference or product that its word type
cannot hold crash it. A fault, in contrast, keeps whatever was written before it.
-/

namespace Chip8

@[ext]
structure Hardware where
  pc : UInt16
  depth : Nat
  stack : Vector UInt16 CallStack.capacity
  delayTimer : UInt8
  soundTimer : UInt8
  tone : Bool
  registers : Vector UInt8 Machine.registerCount
  index : UInt16
  memory : Vector UInt8 Memory.size
  display : Vector (Vector UInt8 Display.width) Display.height
  keypad : Vector Bool Keypad.keyCount
  random : Random.Generator
  log : List Event

namespace Hardware

/-- What becomes of an action: a value, a fault with the state in which it arose, or a crash. -/
inductive Result (α : Type) where
  | done (value : α) (h : Hardware)
  | fault (cause : Fault) (h : Hardware)
  | crash

def Action (α : Type) : Type := Hardware → Result α

instance : Monad Action where
  pure a := fun h => .done a h
  bind p f := fun h =>
    match p h with
    | .done a next => f a next
    | .fault cause next => .fault cause next
    | .crash => .crash

variable {α β : Type}

@[simp] theorem pure_apply (a : α) (h : Hardware) : (pure a : Action α) h = .done a h := rfl

theorem bind_apply (p : Action α) (f : α → Action β) (h : Hardware) :
    (p >>= f) h =
      match p h with
      | .done a next => f a next
      | .fault cause next => .fault cause next
      | .crash => .crash := rfl

theorem if_apply (c : Prop) {_ : Decidable c} (p q : Action α) (h : Hardware) :
    (if c then p else q) h = if c then p h else q h := by
  split
  · rfl
  · rfl

theorem bind_of_done {p : Action α} {f : α → Action β} {h next : Hardware} {a : α}
    (hp : p h = .done a next) : (p >>= f) h = f a next := by
  simp [bind, hp]

theorem bind_of_fault {p : Action α} {f : α → Action β} {h next : Hardware} {cause : Fault}
    (hp : p h = .fault cause next) : (p >>= f) h = .fault cause next := by
  simp [bind, hp]

/-! ## Primitive actions -/

def crash : Action α := fun _ => .crash

def raise (cause : Fault) : Action α := fun h => .fault cause h

def look (f : Hardware → α) : Action α := fun h => .done (f h) h

def change (f : Hardware → Hardware) : Action Unit := fun h => .done () (f h)

def report (event : Event) : Action Unit := change fun h => { h with log := h.log ++ [event] }

def demand (p : Prop) [Decidable p] : Action Unit := if p then pure () else crash

@[simp] theorem look_apply (f : Hardware → α) (h : Hardware) : look f h = .done (f h) h := rfl

@[simp] theorem change_apply (f : Hardware → Hardware) (h : Hardware) :
    change f h = .done () (f h) := rfl

@[simp] theorem raise_apply (cause : Fault) (h : Hardware) :
    (raise cause : Action α) h = .fault cause h := rfl

theorem demand_apply {p : Prop} [Decidable p] (hp : p) (h : Hardware) :
    demand p h = .done () h := by
  rw [demand, if_pos hp]
  rfl

/-! ## Arithmetic that has to fit -/

/-- How many values a word of an address has. -/
def wordValues : Nat := 65536

/-- How many values the type of sizes and array positions has. -/
def sizeValues : Nat := 18446744073709551616

theorem lt_sizeValues {n : Nat} (h : n ≤ 131072) : n < sizeValues :=
  Nat.lt_of_le_of_lt h (by decide)

def sum (values a b : Nat) : Action Nat := do
  demand (a + b < values)
  return a + b

def difference (a b : Nat) : Action Nat := do
  demand (b ≤ a)
  return a - b

def product (values a b : Nat) : Action Nat := do
  demand (a * b < values)
  return a * b

theorem sum_apply {values a b : Nat} (hfits : a + b < values) (h : Hardware) :
    sum values a b h = .done (a + b) h :=
  bind_of_done (demand_apply hfits h)

theorem difference_apply {a b : Nat} (hle : b ≤ a) (h : Hardware) :
    difference a b h = .done (a - b) h :=
  bind_of_done (demand_apply hle h)

theorem product_apply {values a b : Nat} (hfits : a * b < values) (h : Hardware) :
    product values a b h = .done (a * b) h :=
  bind_of_done (demand_apply hfits h)

/-! ## Arrays -/

variable {n : Nat}

def entry (v : Vector α n) (i : Nat) : Action α :=
  match v[i]? with
  | some a => pure a
  | none => crash

def withEntry (v : Vector α n) (i : Nat) (a : α) : Action (Vector α n) := do
  demand (i < n)
  return v.setIfInBounds i a

/-- The entries from `start` up to `stop`, without the last. -/
def slice (v : Vector α n) (start stop : Nat) : Action (List α) := do
  demand (start ≤ stop ∧ stop ≤ n)
  return (v.toList.drop start).take (stop - start)

/-- The array with the entries from `start` up to `stop` copied from a list of that length. -/
def withSlice (v : Vector α n) (start stop : Nat) (source : List α) : Action (Vector α n) := do
  demand (start ≤ stop ∧ stop ≤ n ∧ source.length = stop - start)
  return v.mapIdx fun i old => if start ≤ i ∧ i < stop then source[i - start]?.getD old else old

theorem entry_apply (v : Vector α n) {i : Nat} (hi : i < n) (h : Hardware) :
    entry v i h = .done v[i] h := by
  simp [entry, hi]

theorem withEntry_apply (v : Vector α n) {i : Nat} (hi : i < n) (a : α) (h : Hardware) :
    withEntry v i a h = .done (v.setIfInBounds i a) h :=
  bind_of_done (demand_apply hi h)

theorem slice_apply (v : Vector α n) {start stop : Nat} (hle : start ≤ stop) (hstop : stop ≤ n)
    (h : Hardware) : slice v start stop h = .done ((v.toList.drop start).take (stop - start)) h :=
  bind_of_done (demand_apply ⟨hle, hstop⟩ h)

theorem withSlice_apply (v : Vector α n) {start stop : Nat} {source : List α}
    (hle : start ≤ stop) (hstop : stop ≤ n) (hlength : source.length = stop - start)
    (h : Hardware) :
    withSlice v start stop source h =
      .done (v.mapIdx fun i old =>
        if start ≤ i ∧ i < stop then source[i - start]?.getD old else old) h :=
  bind_of_done (demand_apply ⟨hle, hstop, hlength⟩ h)

end Hardware

end Chip8
