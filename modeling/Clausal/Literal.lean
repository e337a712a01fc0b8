import Clausal.Atom

/-!
# Literals

A literal is an atom with a polarity. It is written as an integer: `7` asserts atom 7 and `-7`
denies it. The integer 0 is read as a literal too, which belongs to no atom; where literals come
from outside, the operation that takes them says how it refuses this one.

The integers meant are those from −(2³¹ − 1) to 2³¹ − 1. Of the integers of 32 bits this leaves out
−2³¹, whose negation needs more bits. Its atom is above the greatest one, and an instance refuses it
for that. A search does not look at the range of the literals that it negates, so a clause with −2³¹
in it is outside of what `Search.addClause` describes.

`toInt_ofInt` says that the integers are a faithful way to write literals.
-/

namespace Clausal

structure Literal where
  /-- The index of the literal's atom. -/
  atom : Nat
  /-- Whether the literal asserts its atom. -/
  polarity : Bool
deriving DecidableEq

namespace Literal

/-- The literal that an integer stands for. -/
def ofInt (i : Int) : Literal := ⟨i.natAbs, decide (0 < i)⟩

/-- The integer that a literal is written as. -/
def toInt (l : Literal) : Int := if l.polarity then l.atom else -(l.atom : Int)

/-- The literal of the same atom with the other polarity. -/
def neg (l : Literal) : Literal := ⟨l.atom, !l.polarity⟩

instance : Neg Literal := ⟨neg⟩

/-- The literals as the numbers 2, 3, 4, …: two to an atom, the asserting one first. -/
def slot (l : Literal) : Nat := 2 * l.atom + (if l.polarity then 0 else 1)

/-- Literals by atom; for one atom the denying literal comes first. -/
def order : Literal → Literal → Ordering :=
  compareLex (compareOn atom) (compareOn polarity)

/-- Literals in the order of the integers they are written as: first those that deny. -/
def signedOrder : Literal → Literal → Ordering :=
  compareLex (compareOn polarity) (compareOn toInt)

/-- Whether the literal is true when atoms have the values of `v`. -/
def trueUnder (v : Nat → Bool) (l : Literal) : Bool := v l.atom == l.polarity

/-- The atom of a literal that asserts one. -/
def asserted? (l : Literal) : Option Atom :=
  if h : 0 < l.atom then if l.polarity then some ⟨l.atom, h⟩ else none else none

/-- The text of a literal: its integer in decimal. -/
def chars (l : Literal) : List Char :=
  if l.toInt < 0 then '-' :: Nat.toDigits 10 l.atom else Nat.toDigits 10 l.atom

theorem trueUnder_iff {v : Nat → Bool} {l : Literal} :
    l.trueUnder v = true ↔ v l.atom = l.polarity :=
  beq_iff_eq

/-! ## Negation -/

@[simp] theorem atom_neg (l : Literal) : (-l).atom = l.atom := rfl

@[simp] theorem polarity_neg (l : Literal) : (-l).polarity = !l.polarity := rfl

@[simp] theorem neg_neg (l : Literal) : - -l = l := by
  cases l
  simp [Neg.neg, neg]

@[ext] theorem ext {l m : Literal} (ha : l.atom = m.atom) (hp : l.polarity = m.polarity) :
    l = m := by
  cases l
  cases m
  simp_all

theorem neg_ne_self (l : Literal) : -l ≠ l :=
  fun h => (Bool.not_eq_self _).mp (congrArg polarity h)

theorem neg_injective : Function.Injective fun l : Literal => -l := by
  intro l m h
  rw [← neg_neg l, ← neg_neg m]
  exact congrArg Neg.neg h

theorem trueUnder_neg (v : Nat → Bool) (l : Literal) :
    (-l).trueUnder v = !l.trueUnder v := by
  cases hv : v l.atom <;> cases hp : l.polarity <;> simp [trueUnder, hv, hp]

/-! ## Integers -/

theorem toInt_ofInt (i : Int) : (ofInt i).toInt = i := by
  by_cases h : 0 < i
  · simp only [ofInt, toInt, h, decide_true, ↓reduceIte]
    omega
  · simp only [ofInt, toInt, h, decide_false, Bool.false_eq_true, ↓reduceIte]
    omega

theorem ofInt_toInt {l : Literal} (h : l.atom ≠ 0) : ofInt l.toInt = l := by
  obtain ⟨a, p⟩ := l
  have ha : 0 < a := Nat.pos_of_ne_zero h
  cases p with
  | true => simp [ofInt, toInt, ha]
  | false => simp [ofInt, toInt]

/-! ## Orders -/

instance : Std.LawfulEqCmp order where
  compare_self := by simp [order, compareLex, compareOn]
  eq_of_compare h := by
    simp only [order, compareLex, compareOn, Ordering.then_eq_eq, Std.compare_eq_iff_eq] at h
    exact ext h.1 h.2

instance : Std.TransCmp order :=
  inferInstanceAs (Std.TransCmp (compareLex (compareOn atom) (compareOn polarity)))

instance : Std.LawfulEqCmp signedOrder where
  compare_self := by simp [signedOrder, compareLex, compareOn]
  eq_of_compare {l m} h := by
    simp only [signedOrder, compareLex, compareOn, Ordering.then_eq_eq,
      Std.compare_eq_iff_eq] at h
    obtain ⟨hp, hi⟩ := h
    refine ext ?_ hp
    cases hl : l.polarity <;> simp [toInt, ← hp, hl] at hi <;> omega

instance : Std.TransCmp signedOrder :=
  inferInstanceAs (Std.TransCmp (compareLex (compareOn polarity) (compareOn toInt)))

end Literal

end Clausal
