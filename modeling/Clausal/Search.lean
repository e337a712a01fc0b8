import Clausal.Config
import Clausal.Random.ChaCha
import Clausal.Report
import Clausal.Search.Propagation

/-!
# The search

The state of a search for a model of clauses: an assignment, the stored clauses, how much of the
trail has been propagated, and the decisions that are open. A decision opens a level, and a level is
turned round once before it is given up. All of the state is kept from one solve to the next, so
clauses may be added between solves.

This module holds the state and propagation; its neighbours under `Clausal.Search` hold the other
steps.
-/

namespace Clausal

/-- An open decision. -/
structure Level where
  /-- The length of the trail before the decision. -/
  start : Nat
  /-- The literal decided. -/
  decision : Literal
  /-- Whether the other polarity has been tried before. -/
  flipped : Bool
deriving DecidableEq

/-- What a search has done so far, over all its solves. -/
structure Counters where
  conflicts : Nat
  decisions : Nat
  iterations : Nat
deriving DecidableEq

open Search in
structure Search where
  config : Config
  counters : Counters
  assignment : Assignment
  store : Store
  /-- The number of trail literals that have been propagated. -/
  head : Nat
  /-- The open levels, the latest first. -/
  levels : List Level
  /-- Whether the clauses are known to have no model. -/
  inconsistent : Bool
  source : Random.Source

namespace Search

/-- A search without clauses over a number of atoms, with random words from a given source. -/
def withSource (config : Config) (source : Random.Source) (atomCount : Nat) : Search where
  config
  counters := ⟨0, 0, 0⟩
  assignment := Assignment.new atomCount
  store := Store.new atomCount
  head := 0
  levels := []
  inconsistent := false
  source

/-- A search without clauses over a number of atoms, seeded as the configuration says. -/
def new (config : Config) (atomCount : Nat) : Search :=
  withSource config (Random.Source.ofSeed config.seed.value) atomCount

def atomCount (s : Search) : Nat := s.assignment.atomCount

def value (s : Search) (index : Nat) : Option Bool := s.assignment.value index

def valueOf (s : Search) (l : Literal) : Option Bool := s.assignment.valueOf l

/-- The number of open levels. -/
def level (s : Search) : Nat := s.levels.length

/-- The number of stored clauses. -/
def clauseCount (s : Search) : Nat := s.store.clauses.size

/-- Makes a literal true at the present level. -/
def assign (s : Search) (l : Literal) : Search :=
  { s with assignment := s.assignment.assign l }

/-! ## Propagation -/

/-- Visits the clauses that watch the negation of a true literal. Returns the number of a clause that
is false, if one was met. -/
def propagateLiteral (s : Search) (l : Literal) : Option Nat × Search :=
  let v := visit (-l) s.assignment s.store [] (s.store.watchersOf (-l))
  (v.conflict?,
    { s with assignment := v.assignment, store := v.store.setWatchers (-l) v.watchers })

theorem openCount_add_trail_propagateLiteral (s : Search) (l : Literal) :
    (s.propagateLiteral l).2.assignment.openCount + (s.propagateLiteral l).2.assignment.trail.size
      = s.assignment.openCount + s.assignment.trail.size :=
  openCount_add_trail_visit _ _ _ _ _

theorem size_trail_le_propagateLiteral (s : Search) (l : Literal) :
    s.assignment.trail.size ≤ (s.propagateLiteral l).2.assignment.trail.size :=
  size_trail_le_visit _ _ _ _ _

/-- Propagates the literals of the trail that have not been, in order, those assigned on the way
included. Stops at the first clause that is false and returns its number; the literal that made it
false then counts as not propagated. -/
def propagate (s : Search) : Option Nat × Search :=
  match _h : s.assignment.trail[s.head]? with
  | none => (none, s)
  | some l =>
    match _h' : s.propagateLiteral l with
    | (some key, t) => (some key, t)
    | (none, t) => propagate { t with head := t.head + 1 }
termination_by s.assignment.openCount + (s.assignment.trail.size - s.head)
decreasing_by
  have hcount := openCount_add_trail_propagateLiteral s l
  have htrail := size_trail_le_propagateLiteral s l
  have hhead : (s.propagateLiteral l).2.head = s.head := rfl
  obtain ⟨hlt, _⟩ := Array.getElem?_eq_some_iff.mp _h
  rw [_h'] at hcount htrail hhead
  simp only at hcount htrail hhead
  simp only [hhead]
  omega

theorem levels_propagate (s : Search) : s.propagate.2.levels = s.levels := by
  fun_induction propagate s with
  | case1 => rfl
  | case2 s l _ key t h =>
    exact congrArg (fun r => r.2.levels) h ▸ rfl
  | case3 s l _ t h ih =>
    exact ih.trans (congrArg (fun r => r.2.levels) h ▸ rfl)

theorem atomCount_propagateLiteral (s : Search) (l : Literal) :
    (s.propagateLiteral l).2.atomCount = s.atomCount :=
  atomCount_visit _ _ _ _ _

theorem atomCount_propagate (s : Search) : s.propagate.2.atomCount = s.atomCount := by
  fun_induction propagate s with
  | case1 => rfl
  | case2 s l _ key t h => rw [← atomCount_propagateLiteral s l, h]
  | case3 s l _ t h ih =>
    rw [ih, ← atomCount_propagateLiteral s l, h]
    rfl

end Search

end Clausal
