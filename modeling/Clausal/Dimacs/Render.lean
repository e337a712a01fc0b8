import Clausal.Cnf

/-!
# Writing an instance in DIMACS form

A comment, the problem line with the numbers of atoms and clauses, and a line for each clause: its
literals and a zero.
-/

namespace Clausal.Dimacs

/-- The comment that opens every rendered instance. -/
def header : List Char := "c tseitin_cnf".toList

/-- The problem line of an instance. -/
def problemChars (cnf : Cnf) : List Char :=
  "p cnf ".toList ++ Nat.toDigits 10 cnf.atomCount ++ ' ' :: Nat.toDigits 10 cnf.clauseCount

/-- The lines of a rendered instance, without their line ends. -/
def renderLines (cnf : Cnf) : List (List Char) :=
  header :: problemChars cnf :: cnf.clauses.map Clause.closedChars

/-- An instance in DIMACS form; every line has a line end. -/
def renderChars (cnf : Cnf) : List Char := (renderLines cnf).flatMap (· ++ ['\n'])

def render (cnf : Cnf) : String := String.ofList (renderChars cnf)

end Clausal.Dimacs
