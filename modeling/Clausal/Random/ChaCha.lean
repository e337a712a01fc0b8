import Clausal.Random

/-!
# Seeded random words

The words of ChaCha with twelve rounds, for a key that a linear congruential generator makes of a
64-bit seed. A block is sixteen words; the block counter counts from 0.
-/

namespace Clausal.Random

/-! ## The key -/

/-- A step of the linear congruential generator. -/
def keyStep (state : UInt64) : UInt64 := state * 6364136223846793005 + 11634580027462260723

/-- The output of a state: its upper bits folded and rotated by its top five bits. -/
def keyWord (state : UInt64) : UInt32 :=
  let folded := (((state >>> 18) ^^^ state) >>> 27).toUInt32
  let turn := (state >>> 59).toUInt32
  (folded >>> turn) ||| (folded <<< ((32 - turn) % 32))

/-- The first `n` words after a state. -/
def keyWords : Nat → UInt64 → List UInt32
  | 0, _ => []
  | n + 1, state => keyWord (keyStep state) :: keyWords n (keyStep state)

/-! ## Blocks -/

def rotateLeft (x n : UInt32) : UInt32 := (x <<< n) ||| (x >>> (32 - n))

/-- The quarter round on the words at four places. -/
def quarterRound (s : Vector UInt32 16) (a b c d : Fin 16) : Vector UInt32 16 :=
  let wa := s[a] + s[b]
  let wd := rotateLeft (s[d] ^^^ wa) 16
  let wc := s[c] + wd
  let wb := rotateLeft (s[b] ^^^ wc) 12
  let wa := wa + wb
  let wd := rotateLeft (wd ^^^ wa) 8
  let wc := wc + wd
  let wb := rotateLeft (wb ^^^ wc) 7
  (((s.set a wa).set b wb).set c wc).set d wd

/-- Two rounds: one over the columns, one over the diagonals. -/
def doubleRound (s : Vector UInt32 16) : Vector UInt32 16 :=
  let s := quarterRound s 0 4 8 12
  let s := quarterRound s 1 5 9 13
  let s := quarterRound s 2 6 10 14
  let s := quarterRound s 3 7 11 15
  let s := quarterRound s 0 5 10 15
  let s := quarterRound s 1 6 11 12
  let s := quarterRound s 2 7 8 13
  quarterRound s 3 4 9 14

/-- The state before the rounds: constants, key, block counter and zeros. -/
def initialState (key : List UInt32) (block : Nat) : Vector UInt32 16 :=
  let words := [0x61707865, 0x3320646e, 0x79622d32, 0x6b206574] ++ key
    ++ [UInt32.ofNat block, UInt32.ofNat (block / wordCount), 0, 0]
  Vector.ofFn fun i => words.getD i.val 0

/-- The words of a block: twelve rounds, added to the state before them. -/
def blockWords (key : List UInt32) (block : Nat) : Vector UInt32 16 :=
  let start := initialState key block
  let mixed := Nat.repeat doubleRound 6 start
  Vector.ofFn fun i => start[i] + mixed[i]

/-- The source of the words for a seed. -/
def Source.ofSeed (seed : Nat) : Source :=
  let key := keyWords 8 (UInt64.ofNat seed)
  { word := fun i => (blockWords key (i / 16))[i % 16], next := 0 }

end Clausal.Random
