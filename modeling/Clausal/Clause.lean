import Clausal.Literal

/-!
# Clauses

A clause is a list of literals, read as their disjunction; the empty clause is false. Its canonical
form lists the same literals in order and once each, so clauses with the same literals have the
same canonical form.
-/

namespace Clausal

abbrev Clause := List Literal

namespace Clause

/-- The indices of the clause's atoms, one for each literal. -/
def atoms (c : Clause) : List Nat := c.map Literal.atom

/-- The greatest index of an atom of the clause, and 0 for the empty clause. -/
def maxAtom (c : Clause) : Nat := c.atoms.foldr max 0

/-- Whether some literal is true when atoms have the values of `v`. -/
def satisfiedBy (v : Nat → Bool) (c : Clause) : Bool := c.any (Literal.trueUnder v)

/-- The literals of the clause in order, each once. -/
def canonical (c : Clause) : Clause := Ordered.ofList Literal.order c

/-- Whether a literal is directly followed by its negation. In a canonical clause the two literals
of an atom are neighbours, so this finds the tautologies. -/
def hasComplement : Clause → Bool
  | l :: m :: c => l == -m || hasComplement (m :: c)
  | _ => false

/-! ## Text -/

/-- The literals separated by single spaces. -/
def openChars (c : Clause) : List Char := [' '].intercalate (c.map Literal.chars)

/-- The literals, each followed by a space, and a closing zero. -/
def closedChars (c : Clause) : List Char := c.flatMap (fun l => l.chars ++ [' ']) ++ ['0']

/-! ## Canonical form -/

@[simp] theorem mem_canonical {l : Literal} {c : Clause} : l ∈ c.canonical ↔ l ∈ c :=
  Ordered.mem_ofList _

theorem increasing_canonical (c : Clause) : Ordered.Increasing Literal.order c.canonical :=
  Ordered.increasing_ofList _ c

@[simp] theorem satisfiedBy_canonical (v : Nat → Bool) (c : Clause) :
    c.canonical.satisfiedBy v = c.satisfiedBy v := by
  rw [Bool.eq_iff_iff]
  simp [satisfiedBy]

end Clause

end Clausal
