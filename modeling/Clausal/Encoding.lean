import Clausal.Cnf
import Clausal.Formula
import Clausal.Supply

/-!
# Encoding a formula as clauses

The encoding gives every subformula a literal. An atom is its own literal and a negation turns the
literal of its operand round. A conjunction or disjunction takes a fresh atom `z` from the supply,
and clauses make `z` agree with the connective applied to the literals of its operands:

* for a conjunction `-z l` for each operand `l`, and `z -l₁ … -lₙ`;
* for a disjunction `z -l` for each operand `l`, and `-z l₁ … lₙ`.

A last clause asserts the literal of the whole formula. The size of the result is linear in the
size of the formula, and the result has a model exactly when the formula has one.
-/

namespace Clausal

/-- The clauses that make the atom of an asserting literal `z` agree with a connective. -/
def Connective.definition (op : Connective) (z : Literal) (operands : List Literal) :
    List Clause :=
  match op with
  | .and => operands.map (fun l => [-z, l]) ++ [z :: operands.map (- ·)]
  | .or => operands.map (fun l => [z, -l]) ++ [-z :: operands]

/-- The literal that asserts an atom. -/
def Atom.literal (a : Atom) : Literal := ⟨a.index, true⟩

/-- What an encoding in progress has used and produced. -/
structure Encoder where
  supply : Supply
  cnf : Cnf

namespace Encoder

/-- Adds clauses in turn, up to the first that is refused. -/
def add (e : Encoder) : List Clause → Except Error Unit × Encoder
  | [] => (.ok (), e)
  | c :: cs =>
    match e.cnf.addClause c with
    | .error x => (.error (.formula x), e)
    | .ok (_, cnf) => add { e with cnf } cs

/-- The literal of a connective whose operands have the given literals. -/
def define (e : Encoder) (op : Connective) (operands : List Literal) :
    Except Error Literal × Encoder :=
  match e.supply.fresh with
  | .error x => (.error (.supply x), e)
  | .ok (z, supply) =>
    match add { e with supply } (op.definition z.literal operands) with
    | (.error x, e) => (.error x, e)
    | (.ok (), e) => (.ok z.literal, e)

mutual

/-- The literal of a formula. An atom must be known to the supply at the time it is met. -/
def literal : Formula → Encoder → Except Error Literal × Encoder
  | .var a, e =>
    if e.supply.knows a then (.ok a.literal, e)
    else (.error (.supply (.unknownAtom a.index)), e)
  | .neg f, e =>
    match literal f e with
    | (.error x, e) => (.error x, e)
    | (.ok l, e) => (.ok (-l), e)
  | .node op fs, e =>
    if fs.isEmpty then (.error (.formula .emptyConnective), e)
    else
      match literals fs e with
      | (.error x, e) => (.error x, e)
      | (.ok ls, e) => e.define op ls

/-- The literals of the operands, from left to right. -/
def literals : List Formula → Encoder → Except Error (List Literal) × Encoder
  | [], e => (.ok [], e)
  | f :: fs, e =>
    match literal f e with
    | (.error x, e) => (.error x, e)
    | (.ok l, e) =>
      match literals fs e with
      | (.error x, e) => (.error x, e)
      | (.ok ls, e) => (.ok (l :: ls), e)

end

end Encoder

/-- The clauses of a formula and the literal that stands for it. -/
structure Encoding where
  cnf : Cnf
  root : Literal

/-- Encodes a formula. Atoms that a failed encoding took from the supply stay taken. -/
def Supply.encode (s : Supply) (f : Formula) : Except Error Encoding × Supply :=
  match Encoder.literal f ⟨s, Cnf.empty⟩ with
  | (.error x, e) => (.error x, e.supply)
  | (.ok root, e) =>
    match e.add [[root]] with
    | (.error x, e) => (.error x, e.supply)
    | (.ok (), e) => (.ok ⟨e.cnf.declareAtomCount e.supply.mark, root⟩, e.supply)

end Clausal
