import Clausal.Error
import Clausal.Ordered

/-!
# Atoms

An atom is a positive index. It is written `x7`, and its literals are the integers `7` and `-7`.
-/

namespace Clausal

/-- The greatest atom: the literals of every atom up to it are signed 32-bit integers. -/
def atomMax : Nat := 2147483647

/-- A name for something that is true or false. -/
structure Atom where
  index : Nat
  index_pos : 0 < index
deriving DecidableEq

namespace Atom

/-- The atom of an index, which 0 does not have. -/
def ofIndex (index : Nat) : Except FormulaError Atom :=
  if h : 0 < index then .ok ⟨index, h⟩ else .error .nullAtom

/-- The atom with the greatest index that a supply hands out. -/
def greatest : Atom := ⟨atomMax, by decide⟩

/-- Atoms are ordered by index. -/
def order : Atom → Atom → Ordering := compareOn index

/-- The text of an atom: `x` and its index. -/
def chars (a : Atom) : List Char := 'x' :: Nat.toDigits 10 a.index

def text (a : Atom) : String := String.ofList a.chars

theorem ofIndex_index (a : Atom) : ofIndex a.index = .ok a := by
  simp [ofIndex, a.index_pos]

theorem eq_of_index_eq {a b : Atom} (h : a.index = b.index) : a = b := by
  cases a
  cases b
  simp_all

instance : Std.LawfulEqCmp order where
  compare_self := by simp [order, compareOn]
  eq_of_compare h := eq_of_index_eq (by simpa [order, compareOn] using h)

instance : Std.TransCmp order := inferInstanceAs (Std.TransCmp (compareOn index))

end Atom

end Clausal
