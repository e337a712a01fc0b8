import Clausal.Model

/-!
# Formulas

A formula is an atom, a negation, or a conjunction or disjunction of a list of formulas. The list
of operands may be of any length, also empty: an empty conjunction is true and an empty disjunction
false. `Formula.eval` gives the value of a formula; its helper on lists of operands is
`Formula.evals`, and `evals_eq_map` says that it is the value of each operand in turn.
-/

namespace Clausal

inductive Connective where
  | and
  | or
deriving DecidableEq

/-- The value of a connective on the values of its operands. -/
def Connective.apply : Connective → List Bool → Bool
  | .and, values => values.all id
  | .or, values => values.any id

inductive Formula where
  | var (a : Atom)
  | neg (f : Formula)
  | node (op : Connective) (operands : List Formula)

namespace Formula

/-! ## Value -/

mutual

/-- The value of a formula when atoms have the values of `v`. -/
def eval (v : Atom → Bool) : Formula → Bool
  | var a => v a
  | neg f => !f.eval v
  | node op fs => op.apply (evals v fs)

def evals (v : Atom → Bool) : List Formula → List Bool
  | [] => []
  | f :: fs => f.eval v :: evals v fs

end

/-- The value of a formula in a model. -/
def evalIn (m : Model) (f : Formula) : Bool := f.eval m.valueOf

theorem evals_eq_map (v : Atom → Bool) (fs : List Formula) : evals v fs = fs.map (eval v) := by
  induction fs with
  | nil => rfl
  | cons f fs ih => simp [evals, ih]

/-! ## Contents -/

mutual

/-- The atom of every leaf, from left to right. -/
def leaves : Formula → List Atom
  | var a => [a]
  | neg f => f.leaves
  | node _ fs => leavesOf fs

def leavesOf : List Formula → List Atom
  | [] => []
  | f :: fs => f.leaves ++ leavesOf fs

end

/-- The atoms of a formula, increasing and without repeats. -/
def atoms (f : Formula) : List Atom := Ordered.ofList Atom.order f.leaves

mutual

/-- The number of conjunctions and disjunctions. -/
def connectiveCount : Formula → Nat
  | var _ => 0
  | neg f => f.connectiveCount
  | node _ fs => 1 + connectiveCountOf fs

def connectiveCountOf : List Formula → Nat
  | [] => 0
  | f :: fs => f.connectiveCount + connectiveCountOf fs

end

/-! ## Equality -/

mutual

/-- Whether two formulas are the same tree. -/
def beq : Formula → Formula → Bool
  | var a, var b => a == b
  | neg f, neg g => f.beq g
  | node op fs, node op' gs => op == op' && beqs fs gs
  | _, _ => false

def beqs : List Formula → List Formula → Bool
  | [], [] => true
  | f :: fs, g :: gs => f.beq g && beqs fs gs
  | _, _ => false

end

instance : BEq Formula := ⟨beq⟩

mutual

theorem beq_eq_true_iff : ∀ f g : Formula, f.beq g = true ↔ f = g
  | var a, var b => by simp [beq]
  | neg f, neg g => by simp [beq, beq_eq_true_iff f g]
  | node op fs, node op' gs => by simp [beq, beqs_eq_true_iff fs gs]
  | var _, neg _ | var _, node _ _ | neg _, var _ | neg _, node _ _
  | node _ _, var _ | node _ _, neg _ => by simp [beq]

theorem beqs_eq_true_iff : ∀ fs gs : List Formula, beqs fs gs = true ↔ fs = gs
  | [], [] => by simp [beqs]
  | f :: fs, g :: gs => by simp [beqs, beq_eq_true_iff f g, beqs_eq_true_iff fs gs]
  | [], _ :: _ | _ :: _, [] => by simp [beqs]

end

instance : DecidableEq Formula := fun f g =>
  decidable_of_iff (f.beq g = true) (beq_eq_true_iff f g)

end Formula

end Clausal
