import Clausal.Binary64

/-!
# Random draws

A source of randomness is an endless sequence of 32-bit words with the position of the next one.
Nothing here depends on where the words come from. A draw takes as many words as it needs and
returns the source moved on.
-/

namespace Clausal.Random

/-- The number of 32-bit words. -/
def wordCount : Nat := 4294967296

structure Source where
  word : Nat → UInt32
  next : Nat

namespace Source

/-- The next word. -/
def draw32 (s : Source) : Nat × Source :=
  ((s.word s.next).toNat, { s with next := s.next + 1 })

/-- The next two words as one number, the low word first. -/
def draw64 (s : Source) : Nat × Source :=
  let (low, s) := s.draw32
  let (high, s) := s.draw32
  (low + high * wordCount, s)

/-- True with probability `p`, for a `p` from 0 to 1. A certain answer needs no words; an impossible
one takes them all the same. -/
def drawBool (p : Binary64) (s : Source) : Bool × Source :=
  if p = .one then (true, s)
  else
    let (v, s) := s.draw64
    (decide (v < p.floorScaled 64), s)

/-- Of the products `w * n` of a word and `n`, those whose low half is at most this are spread evenly
over the high halves. -/
def evenZone (n : Nat) : Nat := n <<< (31 - n.log2) - 1

/-- Draws words until the low half of a product with `n` is in the even zone, and returns its high
half. Each word does so with a probability above one half; after `patience` words that did not, the
next is taken as it is. -/
def drawBelow (n : Nat) : Nat → Source → Nat × Source
  | 0, s =>
    let (w, s) := s.draw32
    (w * n / wordCount, s)
  | patience + 1, s =>
    let (w, s) := s.draw32
    if w * n % wordCount ≤ evenZone n then (w * n / wordCount, s) else drawBelow n patience s

/-- A member of a list, all alike. Nothing is drawn for the empty list. -/
def choose? {α : Type} (xs : List α) (s : Source) : Option α × Source :=
  if xs.isEmpty then (none, s)
  else
    let (i, s) := drawBelow xs.length 4096 s
    (xs[i]?, s)

end Source

end Clausal.Random
