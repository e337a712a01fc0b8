import Clausal.Binary64

/-!
# The shortest decimal of a number

A finite number is written with the fewest decimal digits that are read back as the same number, and
of those as the nearest to it. The digits are found in exact integer arithmetic: every grid
`10 ^ place`, from coarse to fine, is tried at the two grid points beside the number, and the first
grid with a point that is read back as the number wins. The notation is positional, without an
exponent, and a whole number has no point.
-/

namespace Clausal.Binary64

/-- Compares `c · 10 ^ place` with `b · 2 ^ e`. -/
def compareDecimal (c : Nat) (place : Int) (b : Nat) (e : Int) : Ordering :=
  compare (c * power 10 place * power 2 (-e)) (b * power 2 e * power 10 (-place))

/-- Whether `c · 10 ^ place` is read as the positive finite number `x`: whether it lies between the
midpoints to the neighbours of `x`, or on one of them if the significand is even. -/
def isReadAs (x : Binary64) (c : Nat) (place : Int) : Bool :=
  let m := x.significand
  let below := if m = leadingBit && 1 < x.biasedExponent then 4 * m - 1 else 4 * m - 2
  let above := 4 * m + 2
  match compareDecimal c place below (x.exponent - 2), compareDecimal c place above (x.exponent - 2)
    with
  | .lt, _ | _, .gt => false
  | .gt, .lt => true
  | _, _ => m % 2 = 0

/-- The greatest `c` with `c · 10 ^ place` at most `x`. -/
def floorAt (x : Binary64) (place : Int) : Nat :=
  x.significand * power 2 x.exponent * power 10 (-place)
    / (power 10 place * power 2 (-x.exponent))

/-- Whether `x` lies nearer to `(c + 1) · 10 ^ place` than to `c · 10 ^ place`. From the middle it
goes to the even one. -/
def nearerAbove (x : Binary64) (c : Nat) (place : Int) : Bool :=
  match compareDecimal (2 * c + 1) place (2 * x.significand) x.exponent with
  | .lt => true
  | .eq => c % 2 = 1
  | .gt => false

/-- A point of the grid that is read as `x`, the nearer one if both neighbours are. -/
def pointAt? (x : Binary64) (place : Int) : Option (Nat × Int) :=
  let c := x.floorAt place
  match x.isReadAs c place, x.isReadAs (c + 1) place with
  | true, true => some (if x.nearerAbove c place then c + 1 else c, place)
  | true, false => some (c, place)
  | false, true => some (c + 1, place)
  | false, false => none

/-- A place at or above that of the first digit of a positive finite number. -/
def topPlace (x : Binary64) : Int :=
  (x.significand.log2 + 1 + x.exponent) * 30103 / 100000 + 2

/-- The digits of a positive finite number, as an integer, and the place of the last of them. -/
def shortest (x : Binary64) : Nat × Int :=
  ((List.range 24).findSome? fun (i : Nat) => x.pointAt? (x.topPlace - i)).getD (0, 0)

/-- The positional notation of `c · 10 ^ place`. -/
def positionalChars (c : Nat) (place : Int) : List Char :=
  let ds := Nat.toDigits 10 c
  if 0 ≤ place then ds ++ List.replicate place.toNat '0'
  else
    let k := (-place).toNat
    if k < ds.length then ds.take (ds.length - k) ++ '.' :: ds.drop (ds.length - k)
    else '0' :: '.' :: List.replicate (k - ds.length) '0' ++ ds

/-- The text of a number. -/
def chars (x : Binary64) : List Char :=
  if x.isNaN then ['N', 'a', 'N']
  else
    let absolute :=
      if x.magnitude = infinity then ['i', 'n', 'f']
      else if x.magnitude = 0 then ['0']
      else positionalChars x.shortest.1 x.shortest.2
    if x.negative then '-' :: absolute else absolute

end Clausal.Binary64
