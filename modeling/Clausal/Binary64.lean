/-!
# Binary floating-point numbers

A number of the 64-bit binary format, kept as its bits, so that two NaNs or two zeros with
different bits stay apart. A finite number is `significand · 2 ^ exponent` with its sign. The order
is that of the values: it places the two zeros together, and relates a NaN to nothing.
-/

namespace Clausal

structure Binary64 where
  bits : UInt64
deriving DecidableEq, Repr

namespace Binary64

/-- The sign bit, 2⁶³. -/
def signBit : Nat := 9223372036854775808

/-- The first bit of the significand of a normal number, 2⁵². -/
def leadingBit : Nat := 4503599627370496

/-- A base to the power `k`, and 1 where `k` is negative. -/
def power (base : Nat) (k : Int) : Nat := Nat.pow base k.toNat

/-- Whether the sign bit is set. -/
def negative (x : Binary64) : Bool := decide (signBit ≤ x.bits.toNat)

/-- The bits without the sign, which increase with the absolute value. -/
def magnitude (x : Binary64) : Nat := x.bits.toNat % signBit

/-- The magnitude of the infinities; those of the NaNs are above it. -/
def infinity : Nat := 2047 * leadingBit

def isNaN (x : Binary64) : Bool := decide (infinity < x.magnitude)

/-- The number with the given sign and magnitude. -/
def ofMagnitude (negative : Bool) (magnitude : Nat) : Binary64 :=
  ⟨UInt64.ofNat (magnitude + if negative then signBit else 0)⟩

def zero : Binary64 := ofMagnitude false 0

def one : Binary64 := ofMagnitude false (1023 * leadingBit)

/-- The exponent field, 0 for zero and the subnormal numbers. -/
def biasedExponent (x : Binary64) : Nat := x.magnitude / leadingBit

/-- The integer that a finite number has before its power of two. -/
def significand (x : Binary64) : Nat :=
  if x.biasedExponent = 0 then x.magnitude else leadingBit + x.magnitude % leadingBit

/-- The exponent of the power of two that goes with `significand`. -/
def exponent (x : Binary64) : Int := (max x.biasedExponent 1 : Nat) - 1075

/-- The largest integer that is at most `2 ^ k` times the absolute value of a finite number. -/
def floorScaled (x : Binary64) (k : Nat) : Nat :=
  x.significand * power 2 (x.exponent + k) / power 2 (-(x.exponent + k))

/-! ## Order -/

/-- An integer that increases with the value of a number. -/
def rank (x : Binary64) : Int := if x.negative then -(x.magnitude : Int) else x.magnitude

instance : LE Binary64 where
  le x y := x.isNaN = false ∧ y.isNaN = false ∧ x.rank ≤ y.rank

instance : LT Binary64 where
  lt x y := x.isNaN = false ∧ y.isNaN = false ∧ x.rank < y.rank

instance (x y : Binary64) : Decidable (x ≤ y) :=
  inferInstanceAs (Decidable (x.isNaN = false ∧ y.isNaN = false ∧ x.rank ≤ y.rank))

instance (x y : Binary64) : Decidable (x < y) :=
  inferInstanceAs (Decidable (x.isNaN = false ∧ y.isNaN = false ∧ x.rank < y.rank))

theorem not_le_of_isNaN {x y : Binary64} (h : y.isNaN = true) : ¬ x ≤ y := by
  rintro ⟨_, hy, _⟩
  simp [h] at hy

theorem le_trans {x y z : Binary64} (h : x ≤ y) (h' : y ≤ z) : x ≤ z :=
  ⟨h.1, h'.2.1, Int.le_trans h.2.2 h'.2.2⟩

end Binary64

end Clausal
