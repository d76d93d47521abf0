import Chip8.Proofs.Footprint

/-!
# The stream of random bytes

A generator may compute its words block by block and keep those that are left of the latest block.
It gives the words of the stream in order. A machine uses one of them for each random instruction
that it executes, in its whole life, and none for anything else.
-/

namespace Chip8

namespace Random

/-! ## Words block by block -/

/-- A generator that keeps the words left of one block and computes the next block when there are
none left. -/
structure Buffer where
  key : Vector UInt32 8
  /-- The number of the block that comes next. -/
  number : Nat
  words : List UInt32

namespace Buffer

def fresh (key : Vector UInt32 8) : Buffer := ⟨key, 0, []⟩

def refill (b : Buffer) : Buffer :=
  if b.words = [] then ⟨b.key, b.number + 1, (ChaCha.block b.key b.number).toList⟩ else b

def word (b : Buffer) : UInt32 := b.refill.words.headD 0

def advance (b : Buffer) : Buffer := { b.refill with words := b.refill.words.tail }

/-- The words in store are those of the stream from the position of `g` on, up to the end of a
block. -/
structure Represents (b : Buffer) (g : Generator) : Prop where
  key_eq : b.key = g.key
  position : g.used + b.words.length = 16 * b.number
  stored : ∀ j < b.words.length, b.words[j]? = some (Random.word g.key (g.used + j))

end Buffer

theorem getElem?_block (key : Vector UInt32 8) (number : Nat) {j : Nat} (hj : j < 16) :
    (ChaCha.block key number).toList[j]? = some (word key (16 * number + j)) := by
  have hblock : (16 * number + j) / 16 = number := by omega
  have hplace : (16 * number + j) % 16 = j := by omega
  simp only [word, hblock, hplace, Vector.getElem?_toList]
  exact Vector.getElem?_eq_getElem hj

namespace Buffer

variable {b : Buffer} {g : Generator}

theorem represents_fresh (key : Vector UInt32 8) : (fresh key).Represents ⟨key, 0⟩ :=
  ⟨rfl, rfl, fun _ hj => absurd hj (Nat.not_lt_zero _)⟩

theorem Represents.refill (h : b.Represents g) :
    b.refill.Represents g ∧ 0 < b.refill.words.length := by
  have hposition := h.position
  by_cases hwords : b.words = []
  · -- an empty store stands at the end of a block
    rw [Buffer.refill, if_pos hwords]
    rw [hwords, List.length_nil, Nat.add_zero] at hposition
    refine ⟨⟨h.key_eq, ?_, fun j hj => ?_⟩, by simp⟩
    · simp only [Vector.length_toList]
      omega
    · rw [getElem?_block _ _ (by simpa using hj), h.key_eq, hposition]
  · rw [Buffer.refill, if_neg hwords]
    exact ⟨h, List.length_pos_iff.2 hwords⟩

theorem Represents.word (h : b.Represents g) : b.word = Random.word g.key g.used := by
  obtain ⟨hrefill, hpos⟩ := h.refill
  have hhead := hrefill.stored 0 hpos
  rw [Nat.add_zero, ← List.head?_eq_getElem?] at hhead
  rw [Buffer.word, List.headD_eq_head?_getD, hhead, Option.getD_some]

theorem Represents.advance (h : b.Represents g) : b.advance.Represents g.advance := by
  obtain ⟨hrefill, hpos⟩ := h.refill
  have hposition := hrefill.position
  refine ⟨hrefill.key_eq, ?_, fun j hj => ?_⟩
  · simp only [Buffer.advance, Generator.used_advance, List.length_tail]
    omega
  · simp only [Buffer.advance, List.length_tail] at hj
    simp only [Buffer.advance, List.getElem?_tail, Generator.key_advance, Generator.used_advance]
    rw [hrefill.stored (j + 1) (by omega), Nat.add_right_comm, Nat.add_assoc]

/-- After `k` words, a generator that works block by block gives word `k` of the stream. -/
theorem word_repeat_advance (key : Vector UInt32 8) (k : Nat) :
    (Nat.repeat advance k (fresh key)).word = Random.word key k := by
  have hrepresents : (Nat.repeat advance k (fresh key)).Represents ⟨key, k⟩ := by
    induction k with
    | zero => exact represents_fresh key
    | succ k ih => exact ih.advance
  exact hrepresents.word

end Buffer

end Random

/-! ## Words that a machine uses -/

def Moment.draws (t : Moment) : Bool :=
  match t.deed with
  | .executed i => i.usesRandom
  | _ => false

theorem Moment.deed_of_draws {t : Moment} (h : t.draws = true) :
    ∃ x kk, t.deed = .executed (.random x kk) := by
  obtain ⟨m, deed⟩ := t
  cases deed with
  | executed i =>
      cases i with
      | random x kk => exact ⟨x, kk, rfl⟩
      | _ => cases h
  | _ => cases h

theorem Moment.random_after (t : Moment) :
    t.after.random = if t.draws then t.before.random.advance else t.before.random := by
  obtain ⟨m, deed⟩ := t
  cases deed with
  | executed i => exact m.random_effect i
  | _ => rfl

namespace Machine

theorem v_advance_random (m : Machine) (x : Fin 16) (kk : UInt8) :
    (m.advance (.random x kk)).v x = m.random.byte &&& kk :=
  (m.v_setV x (m.random.byte &&& kk) x).trans (if_pos rfl)

/-- The generator of the machine has given one word for each random instruction of the past, and
each of these found it at the word that has its number. -/
structure Drawn (key : Vector UInt32 8) (past : List Moment) (m : Machine) : Prop where
  random : m.random = ⟨key, (past.filter Moment.draws).length⟩
  before : ∀ (k : Nat) (t : Moment), (past.filter Moment.draws)[k]? = some t →
    t.before.random = ⟨key, k⟩

theorem Drawn.snoc {key : Vector UInt32 8} {past : List Moment} {t : Moment}
    (h : Drawn key past t.before) : Drawn key (past ++ [t]) t.after := by
  have hafter := t.random_after
  have hfilter : (past ++ [t]).filter Moment.draws =
      past.filter Moment.draws ++ if t.draws then [t] else [] := by
    rw [List.filter_append, List.filter_cons, List.filter_nil]
  cases hdraws : t.draws with
  | false =>
      rw [hdraws, if_neg Bool.false_ne_true, List.append_nil] at hfilter
      rw [hdraws, if_neg Bool.false_ne_true] at hafter
      exact ⟨by rw [hfilter, hafter, h.random], by simpa only [hfilter] using h.before⟩
  | true =>
      rw [hdraws, if_pos rfl] at hfilter
      rw [hdraws, if_pos rfl] at hafter
      refine ⟨by rw [hfilter, hafter, h.random, List.length_append]; rfl, fun k u hu => ?_⟩
      rw [hfilter] at hu
      rcases Nat.lt_or_ge k (past.filter Moment.draws).length with hk | hk
      · rw [List.getElem?_append_left hk] at hu
        exact h.before k u hu
      · -- this very deed, which is the last one of the list
        rw [List.getElem?_append_right hk, List.getElem?_singleton] at hu
        split at hu
        · next hlast =>
            obtain rfl : k = (past.filter Moment.draws).length := by omega
            cases hu
            exact h.random
        · cases hu

theorem drawn_timeline (key : Vector UInt32 8) (history : List Call) :
    Drawn key ((powerOn ⟨key, 0⟩).timeline history) ((powerOn ⟨key, 0⟩).after history) :=
  timeline_invariant (P := Drawn key) ⟨key, 0⟩ ⟨rfl, by simp⟩
    (fun _ m deed _ _ hpast => hpast.snoc (t := ⟨m, deed⟩)) history

end Machine

namespace Hardware

/-- Random instruction number `k` in the life of a machine masks the low byte of word `k` of the
stream of its seed, which is also what a generator gives that works block by block. Nothing but a
random instruction moves the generator, and nothing at all resets it. -/
theorem random_follows_stream (seed : UInt64) (history : List Call) :
    let m := (Machine.withSeed seed).after history
    let past := (Machine.withSeed seed).timeline history
    let draws := past.filter Moment.draws
    (∀ k t, draws[k]? = some t →
      ∃ x kk word, t.deed = .executed (.random x kk) ∧
        (Random.ChaCha.block (Random.key seed) (k / 16))[k % 16]? = some word ∧
        (Nat.repeat Random.Buffer.advance k (.fresh (Random.key seed))).word = word ∧
        t.after.v x = word.toUInt8 &&& kk) ∧
      (∀ t ∈ past,
        t.after.random = if t.draws then t.before.random.advance else t.before.random) ∧
      m.random = ⟨Random.key seed, draws.length⟩ ∧
      ∃ h, replay (.ofSeed seed) history = some h ∧
        h.random = ⟨Random.key seed, draws.length⟩ := by
  intro m past draws
  obtain ⟨hrandom, hdraws⟩ := Machine.drawn_timeline (Random.key seed) history
  obtain ⟨log, hreplay⟩ := replay_eq (.ofSeed seed) history
  refine ⟨?_, fun t _ => t.random_after, hrandom, _, hreplay, hrandom⟩
  intro k t ht
  have hbefore : t.before.random = ⟨Random.key seed, k⟩ := hdraws k t ht
  obtain ⟨x, kk, hdeed⟩ := Moment.deed_of_draws (List.mem_filter.1 (List.mem_of_getElem? ht)).2
  refine ⟨x, kk, Random.word (Random.key seed) k, hdeed, ?_,
    Random.Buffer.word_repeat_advance _ k, ?_⟩
  · exact Vector.getElem?_eq_getElem (Nat.mod_lt k (by decide))
  · rw [Moment.after, hdeed, Machine.afterDeed, Machine.v_advance_random, hbefore]
    rfl

/-- Seed 7: an empty mask uses a word as well, and the third word of the stream comes after a
fault, a reset and another program. -/
theorem random_follows_stream_reset :
    let history : List Call :=
      [.load [0xC0, 0xFF, 0xC1, 0x00, 0x00, 0x00], .run 9, .reset, .load [0xC2, 0xFF], .step]
    let draws := ((Machine.withSeed 7).timeline history).filter Moment.draws
    ∃ t, draws[2]? = some t ∧ t.deed = .executed (.random 2 0xFF) ∧ t.after.v 2 = 134 := by
  intro history draws
  have hthird : draws[2]?.map Moment.deed = some (.executed (.random 2 0xFF)) := by
    decide +kernel
  obtain ⟨t, ht, hdeed⟩ := Option.map_eq_some_iff.1 hthird
  obtain ⟨x, kk, word, hrandom, hword, -, hv⟩ := (random_follows_stream 7 history).1 2 t ht
  obtain ⟨rfl, rfl⟩ : x = 2 ∧ kk = 0xFF := by simpa [hdeed, eq_comm] using hrandom
  have hbyte : (Random.ChaCha.block (Random.key 7) (2 / 16))[2 % 16]?.map UInt32.toUInt8 =
      some 134 := by
    decide +kernel
  rw [hword, Option.map_some, Option.some.injEq] at hbyte
  exact ⟨t, ht, hdeed, by rw [hv, hbyte]; rfl⟩

end Hardware

end Chip8
