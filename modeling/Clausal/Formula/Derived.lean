import Clausal.Formula

/-!
# Building formulas

Implication, equivalence and exclusive disjunction are written out with the three connectives of
formulas. A conjunction or disjunction of a list needs an operand, and of one operand it is that
operand. A set of clauses becomes a formula once every atom index is given an atom; the first fault
in reading order is the one reported.
-/

namespace Clausal.Formula

def and (f g : Formula) : Formula := node .and [f, g]

def or (f g : Formula) : Formula := node .or [f, g]

/-- `f` implies `g`: not `f`, or `g`. -/
def imp (f g : Formula) : Formula := or (neg f) g

/-- `f` and `g` imply each other. -/
def iff (f g : Formula) : Formula := and (imp f g) (imp g f)

/-- One of `f` and `g` holds and the other does not. -/
def xor (f g : Formula) : Formula := or (and f (neg g)) (and (neg f) g)

/-- The conjunction or disjunction of a list that has a member. -/
def join (op : Connective) : List Formula → Except FormulaError Formula
  | [] => .error .emptyConnective
  | [f] => .ok f
  | fs => .ok (node op fs)

/-! ## From clauses -/

/-- The formula of a literal, with its atom found by `lookup`. -/
def ofLiteral (lookup : Nat → Except Error Atom) (l : Literal) : Except Error Formula :=
  match lookup l.atom with
  | .error e => .error e
  | .ok a => .ok (if l.polarity then var a else neg (var a))

/-- The disjunction of the literals of a clause. -/
def ofClause (lookup : Nat → Except Error Atom) (c : Clause) : Except Error Formula :=
  match c.mapM (ofLiteral lookup) with
  | .error e => .error e
  | .ok fs => (join .or fs).mapError .formula

/-- The conjunction of the formulas of the clauses. -/
def ofClauses (lookup : Nat → Except Error Atom) (cs : List Clause) : Except Error Formula :=
  match cs.mapM (ofClause lookup) with
  | .error e => .error e
  | .ok fs => (join .and fs).mapError .formula

end Clausal.Formula
