import Clausal.Literal

/-!
# Reports

What an oracle says of the clauses it was given.
-/

namespace Clausal

inductive Report where
  /-- The clauses are satisfiable, and these literals are true in a model of them. -/
  | satisfiable (literals : List Literal)
  /-- The clauses have no model. -/
  | unsatisfiable
  /-- The time limit passed before an answer was found. -/
  | timeUp
deriving DecidableEq

end Clausal
