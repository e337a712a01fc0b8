import Clausal.Clause

/-!
# Instances in conjunctive normal form

An instance is a set of clauses, read as their conjunction, with a bound on the atoms in use. The
clauses are kept in canonical form, as an ordered list without repeats, so an instance does not
remember how often or in what order a clause was added.
-/

namespace Clausal

structure Cnf where
  /-- Canonical clauses, increasing and without repeats. -/
  clauses : List Clause
  /-- The atoms in use are among `1, …, atomCount`. -/
  atomCount : Nat
deriving DecidableEq

namespace Cnf

/-- Clauses are ordered as sequences of integers; a clause comes before its extensions. -/
def clauseOrder : Clause → Clause → Ordering := List.compareLex Literal.signedOrder

/-- No clauses, over at most the given number of atoms. -/
def new (atomCount : Nat) : Cnf := ⟨[], min atomCount atomMax⟩

def empty : Cnf := new 0

/-- The first fault of a clause: the integer 0, or an atom above the greatest atom. -/
def fault? : Clause → Option FormulaError
  | [] => none
  | l :: c =>
    if l.atom = 0 then some .nullAtom
    else if l.atom > atomMax then some (.literalRange l.toInt)
    else fault? c

/-- Adds a clause, and tells whether it is new. A faulty clause is refused. -/
def addClause (cnf : Cnf) (c : Clause) : Except FormulaError (Bool × Cnf) :=
  match fault? c with
  | some fault => .error fault
  | none =>
    let c' := c.canonical
    .ok (!cnf.clauses.contains c',
      ⟨Ordered.insert clauseOrder c' cnf.clauses, max cnf.atomCount c.maxAtom⟩)

/-- The greatest index of an atom that some clause mentions. -/
def maxAtom (cnf : Cnf) : Nat := (cnf.clauses.map Clause.maxAtom).foldr max 0

/-- Sets the atom count, which stays between the greatest atom mentioned and the greatest atom. -/
def declareAtomCount (cnf : Cnf) (atomCount : Nat) : Cnf :=
  { cnf with atomCount := max (min atomCount atomMax) cnf.maxAtom }

def clauseCount (cnf : Cnf) : Nat := cnf.clauses.length

/-- The number of occurrences of literals. -/
def literalCount (cnf : Cnf) : Nat := cnf.clauses.foldr (fun c n => c.length + n) 0

/-- Whether every clause has a literal that is true when atoms have the values of `v`. -/
def satisfiedBy (v : Nat → Bool) (cnf : Cnf) : Bool := cnf.clauses.all (Clause.satisfiedBy v)

def mentions (cnf : Cnf) (l : Literal) : Bool := cnf.clauses.any (·.contains l)

/-- The clauses in brackets, separated by single spaces. -/
def chars (cnf : Cnf) : List Char :=
  [' '].intercalate (cnf.clauses.map fun c => '(' :: c.openChars ++ [')'])

def text (cnf : Cnf) : String := String.ofList cnf.chars

instance : Std.LawfulEqCmp clauseOrder :=
  inferInstanceAs (Std.LawfulEqCmp (List.compareLex Literal.signedOrder))

instance : Std.TransCmp clauseOrder :=
  inferInstanceAs (Std.TransCmp (List.compareLex Literal.signedOrder))

end Cnf

end Clausal
