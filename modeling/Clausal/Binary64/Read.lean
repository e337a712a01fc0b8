import Clausal.Binary64
import Clausal.Text.Numeral

/-!
# Reading a number

A number is written as decimal digits, perhaps with a point among, before or after them and perhaps
with an exponent, or as one of the words `inf`, `infinity` and `nan` in any case; each may have a
sign. Decimals are rounded to the nearest number, from the middle to the even one.
-/

namespace Clausal.Binary64

open Clausal.Text

/-- `n / d` rounded to the nearest integer, from the middle to the even one. -/
def roundedQuotient (n d : Nat) : Nat :=
  let q := n / d
  let r := n % d
  if d < 2 * r || (2 * r == d && q % 2 == 1) then q + 1 else q

/-- The magnitude of the number nearest to the quotient of two positive integers. -/
def magnitudeOfQuotient (n d : Nat) : Nat :=
  let guess : Int := (n.log2 : Int) - d.log2 - 52
  let fits := d * power 2 guess * leadingBit ≤ n * power 2 (-guess)
  let e := max (if fits then guess else guess - 1) (-1074)
  let m := roundedQuotient (n * power 2 (-e)) (d * power 2 e)
  min ((e + 1074).toNat * leadingBit + m) infinity

/-- The magnitude of the number nearest to `c · 10 ^ place`. Decimals beyond every finite number and
decimals too small to matter are told by the place of their first digit. -/
def magnitudeOfDecimal (c : Nat) (place : Int) : Nat :=
  if c = 0 then 0
  else
    let top := ((Nat.toDigits 10 c).length : Int) + place
    if 310 < top then infinity
    else if top < -330 then 0
    else magnitudeOfQuotient (c * power 10 place) (power 10 (-place))

/-- The exponent after the digits of a number: nothing, or `e` and an integer. -/
def exponentPart? : List Char → Option Int
  | [] => some 0
  | c :: cs =>
    if c = 'e' || c = 'E' then
      match cs with
      | '-' :: cs => (natural? cs).map fun n => -(n : Int)
      | '+' :: cs => (natural? cs).map fun n => (n : Int)
      | cs => (natural? cs).map fun n => (n : Int)
    else none

/-- The magnitude of a decimal without a sign. -/
def decimalMagnitude? (cs : List Char) : Option Nat :=
  let isDigit := fun c => (digit? c).isSome
  let whole := cs.takeWhile isDigit
  let rest := cs.dropWhile isDigit
  let (places, rest) := match rest with
    | '.' :: rest => (rest.takeWhile isDigit, rest.dropWhile isDigit)
    | rest => ([], rest)
  match natural? (whole ++ places), exponentPart? rest with
  | some c, some e => some (magnitudeOfDecimal c (e - places.length))
  | _, _ => none

/-- The magnitude of a NaN. -/
def nanMagnitude : Nat := infinity + leadingBit / 2

/-- The magnitude of a number without a sign. -/
def magnitude? (cs : List Char) : Option Nat :=
  match cs.map Char.toLower with
  | ['i', 'n', 'f'] | ['i', 'n', 'f', 'i', 'n', 'i', 't', 'y'] => some infinity
  | ['n', 'a', 'n'] => some nanMagnitude
  | _ => decimalMagnitude? cs

/-- The number that a text stands for. -/
def ofChars? : List Char → Option Binary64
  | '-' :: cs => (magnitude? cs).map (ofMagnitude true)
  | '+' :: cs => (magnitude? cs).map (ofMagnitude false)
  | cs => (magnitude? cs).map (ofMagnitude false)

end Clausal.Binary64
