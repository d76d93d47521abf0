import Chip8.Random.ChaCha

/-!
# Random bytes

A stream of words is fixed by a key, which comes from a seed of 64 bits. A generator is a key
with a position in its stream, and each byte that it gives is the low byte of the next word.
-/

namespace Chip8.Random

/-! ## From a seed to a key -/

/-- The linear congruential step that spreads a seed. -/
def spread (s : UInt64) : UInt64 := s * 6364136223846793005 + 11634580027462260723

/-- The word that a spread seed gives: some of its bits, rotated as its highest five tell. -/
def keyWord (s : UInt64) : UInt32 :=
  rotateRight (((s >>> 18) ^^^ s) >>> 27).toUInt32 (s >>> 59).toUInt32

/-- Word `i` of the key comes from the seed spread `i + 1` times. -/
def key (seed : UInt64) : Vector UInt32 8 :=
  Vector.ofFn fun i => keyWord (Nat.repeat spread (i.val + 1) seed)

/-! ## The stream -/

/-- Word `k` of the stream of `key`: the blocks in order, sixteen words each. -/
def word (key : Vector UInt32 8) (k : Nat) : UInt32 :=
  (ChaCha.block key (k / 16)).get ⟨k % 16, Nat.mod_lt _ (by decide)⟩

structure Generator where
  key : Vector UInt32 8
  /-- The number of words that have been used. -/
  used : Nat
  deriving DecidableEq

namespace Generator

def ofSeed (seed : UInt64) : Generator := ⟨Random.key seed, 0⟩

/-- The byte that comes next. -/
def byte (g : Generator) : UInt8 := (word g.key g.used).toUInt8

/-- The generator behind its next word. -/
def advance (g : Generator) : Generator := { g with used := g.used + 1 }

@[simp] theorem key_advance (g : Generator) : g.advance.key = g.key := rfl

@[simp] theorem used_advance (g : Generator) : g.advance.used = g.used + 1 := rfl

end Generator

end Chip8.Random
