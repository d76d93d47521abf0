/-!
# ChaCha blocks

The block function of the stream cipher ChaCha with twelve rounds: sixteen words from a key of
eight words and a block number. The last two words of the initial state are zero.
-/

namespace Chip8.Random

/-- A word with its bits moved `n` places to the left, those on top coming back below. -/
def rotateLeft (w n : UInt32) : UInt32 := (w <<< n) ||| (w >>> (32 - n))

/-- A word with its bits moved `n` places to the right, those below coming back on top. -/
def rotateRight (w n : UInt32) : UInt32 := (w >>> n) ||| (w <<< (32 - n))

namespace ChaCha

/-- One of the four lines of a quarter round: add word `b` to word `a`, then fold the sum into
word `d` and rotate that by `n` places. -/
def fold {k : Nat} (a b d : Fin k) (n : UInt32) (s : Vector UInt32 k) : Vector UInt32 k :=
  let sum := s.get a + s.get b
  (s.set a.val sum a.isLt).set d.val (rotateLeft (s.get d ^^^ sum) n) d.isLt

def quarterRound {k : Nat} (a b c d : Fin k) (s : Vector UInt32 k) : Vector UInt32 k :=
  fold c d b 7 (fold a b d 8 (fold c d b 12 (fold a b d 16 s)))

/-- A round down the columns of the state, seen as a four by four square. -/
def columnRound (s : Vector UInt32 16) : Vector UInt32 16 :=
  quarterRound 3 7 11 15 (quarterRound 2 6 10 14 (quarterRound 1 5 9 13 (quarterRound 0 4 8 12 s)))

/-- A round along the diagonals of the state. -/
def diagonalRound (s : Vector UInt32 16) : Vector UInt32 16 :=
  quarterRound 3 4 9 14 (quarterRound 2 7 8 13 (quarterRound 1 6 11 12 (quarterRound 0 5 10 15 s)))

/-- `n` times a column round and a diagonal round. -/
def doubleRounds : Nat → Vector UInt32 16 → Vector UInt32 16
  | 0, s => s
  | n + 1, s => doubleRounds n (diagonalRound (columnRound s))

/-- The four words in front of every key. -/
def constants : Vector UInt32 4 := #v[0x61707865, 0x3320646E, 0x79622D32, 0x6B206574]

/-- The state before the first round: the constants, the key, the number of the block, zeros. -/
def start (key : Vector UInt32 8) (number : Nat) : Vector UInt32 16 :=
  constants ++ key ++ #v[UInt32.ofNat number, UInt32.ofNat (number >>> 32), 0, 0]

def block (key : Vector UInt32 8) (number : Nat) : Vector UInt32 16 :=
  let s := start key number
  s.zipWith (· + ·) (doubleRounds 6 s)

end ChaCha

end Chip8.Random
