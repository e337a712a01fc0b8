import Clausal.Error
import Clausal.Search.Levels

/-!
# Adding a clause

A clause is added with no level open. Tautologies are dropped. The empty clause makes the clauses
inconsistent, and so does a literal on its own whose negation is already true; a literal on its own
is otherwise made true. Every other clause is stored, its literals that are not false in front, so
that these are watched where there are enough of them. The literals are within the range that
`Literal` names.
-/

namespace Clausal.Search

/-- Makes room for the atoms up to an index. -/
def grow (s : Search) (index : Nat) : Search :=
  { s with assignment := s.assignment.grow index, store := s.store.grow index }

/-- The literals that are not false, and then those that are, each in their order. -/
def falseLast (a : Assignment) (c : Clause) : Clause :=
  c.filter (fun l => a.valueOf l != some false) ++ c.filter (fun l => a.valueOf l == some false)

/-- Takes note that the clauses have no model. -/
def contradict (s : Search) : Except OracleError Unit × Search :=
  (.error .contradiction, { s with inconsistent := true })

/-- Makes a literal true for good, with no level open. -/
def addUnit (s : Search) (l : Literal) : Except OracleError Unit × Search :=
  match s.valueOf l with
  | some true => (.ok (), s)
  | some false => s.contradict
  | none => (.ok (), s.assign l)

/-- Adds a canonical clause that is no tautology and within the atoms of the search. -/
def addCanonical (s : Search) (c : Clause) : Except OracleError Unit × Search :=
  match falseLast s.assignment c with
  | [] => s.contradict
  | [l] => s.addUnit l
  | first :: second :: rest => (.ok (), { s with store := s.store.add ⟨first, second, rest⟩ })

/-- Adds a clause. A clause with the integer 0 in it is refused and changes nothing. -/
def addClause (s : Search) (c : Clause) : Except OracleError Unit × Search :=
  if c.any fun l => l.atom == 0 then (.error .zeroLiteral, s)
  else
    let s := s.backjump 0
    let c := c.canonical
    if c.hasComplement then (.ok (), s)
    else (s.grow c.maxAtom).addCanonical c

end Clausal.Search
