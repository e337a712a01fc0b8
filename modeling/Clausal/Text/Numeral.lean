/-!
# Decimal numerals

Numerals are read as runs of the ten ASCII digits, with any number of leading zeros, after an
optional sign. A numeral that stands for a number outside the bounds asked for is refused.
-/

namespace Clausal.Text

def digit? (c : Char) : Option Nat :=
  if '0' ≤ c ∧ c ≤ '9' then some (c.toNat - '0'.toNat) else none

/-- Reads on after digits that stand for `n`. -/
def digitsFrom (n : Nat) : List Char → Option Nat
  | [] => some n
  | c :: cs =>
    match digit? c with
    | some d => digitsFrom (10 * n + d) cs
    | none => none

/-- The number that a run of at least one digit stands for. -/
def natural? (cs : List Char) : Option Nat :=
  if cs.isEmpty then none else digitsFrom 0 cs

/-- A natural number up to `most`, perhaps after a plus sign. -/
def unsigned? (most : Nat) (cs : List Char) : Option Nat :=
  let n? := match cs with
    | '+' :: cs => natural? cs
    | cs => natural? cs
  n?.filter (· ≤ most)

/-- An integer between `least` and `most`, perhaps after a sign. -/
def signed? (least most : Int) (cs : List Char) : Option Int :=
  let i? : Option Int := match cs with
    | '-' :: cs => (natural? cs).map fun n => -(n : Int)
    | '+' :: cs => (natural? cs).map fun n => (n : Int)
    | cs => (natural? cs).map fun n => (n : Int)
  i?.filter fun i => least ≤ i && i ≤ most

end Clausal.Text
