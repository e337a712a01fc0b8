import Clausal.Clause
import Clausal.Search.Assignment

/-!
# Stored clauses and their watchers

Clauses with at least two literals are stored, numbered from 0 in the order they came. Each watches
its first two literals: for every literal there is a list of the numbers of the clauses that watch
it. The order of these lists is part of the search, since it decides what is propagated first.
-/

namespace Clausal.Search

/-- A clause with its two watched literals in front. -/
structure StoredClause where
  first : Literal
  second : Literal
  rest : List Literal
deriving DecidableEq

namespace StoredClause

/-- The literals of a stored clause. -/
def literals (c : StoredClause) : Clause := c.first :: c.second :: c.rest

/-- The clause with a watched literal `l` at the second place. -/
def facing (c : StoredClause) (l : Literal) : StoredClause :=
  if c.first = l then { c with first := c.second, second := c.first } else c

/-- Swaps `l` with the first literal of a list that passes a test. Returns that literal and the list
with `l` in its place. -/
def exchange? (test : Literal → Bool) (l : Literal) : List Literal → Option (Literal × List Literal)
  | [] => none
  | m :: ms =>
    if test m then some (m, l :: ms)
    else (exchange? test l ms).map fun (found, ms) => (found, m :: ms)

/-- Watches the first literal of the rest that is not false, in place of the second literal. -/
def rewatch? (c : StoredClause) (a : Assignment) : Option StoredClause :=
  (exchange? (fun l => a.valueOf l != some false) c.second c.rest).map fun (found, rest) =>
    { c with second := found, rest }

end StoredClause

structure Store where
  clauses : Array StoredClause
  /-- The numbers of the clauses that watch a literal, at the literal's slot. -/
  watchers : Array (List Nat)

namespace Store

/-- No clauses, and room for the literals of a number of atoms. -/
def new (atomCount : Nat) : Store := ⟨#[], Array.replicate (2 * (atomCount + 1)) []⟩

/-- Makes room for the literals of the atoms up to an index. -/
def grow (s : Store) (index : Nat) : Store :=
  { s with watchers := s.watchers ++ Array.replicate (2 * (index + 1) - s.watchers.size) [] }

/-- The numbers of the clauses that watch a literal. -/
def watchersOf (s : Store) (l : Literal) : List Nat := s.watchers[l.slot]?.getD []

def setWatchers (s : Store) (l : Literal) (keys : List Nat) : Store :=
  { s with watchers := s.watchers.setIfInBounds l.slot keys }

/-- Adds the number of a clause to the end of the list of a literal. -/
def watch (s : Store) (l : Literal) (key : Nat) : Store :=
  { s with watchers := s.watchers.modify l.slot (· ++ [key]) }

def setClause (s : Store) (key : Nat) (c : StoredClause) : Store :=
  { s with clauses := s.clauses.setIfInBounds key c }

/-- Stores a clause, watched by its first two literals. -/
def add (s : Store) (c : StoredClause) : Store :=
  let key := s.clauses.size
  ({ s with clauses := s.clauses.push c }.watch c.first key).watch c.second key

end Store

end Clausal.Search
