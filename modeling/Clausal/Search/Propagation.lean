import Clausal.Search.Store

/-!
# Propagation of one literal

When a literal becomes false, only the clauses that watch it can have become unit or false. They are
visited in the order of the list of watchers. A clause whose other watched literal is true stays; a
clause with another literal that is not false watches that one instead and leaves the list, and its
place is taken by the last clause of the list; a clause with nothing left but its other watched
literal assigns it, or, if that is false too, is a conflict, which ends the visit.
-/

namespace Clausal.Search

/-- What becomes of a clause whose second literal is false. -/
inductive Verdict where
  /-- The first literal is true. -/
  | satisfied
  /-- The clause goes on with another second literal. -/
  | rewatched (c : StoredClause)
  /-- All literals but the first are false, and the first has no value. -/
  | unit
  /-- All literals are false. -/
  | conflict

/-- Judges a clause whose second literal is false. -/
def StoredClause.judge (c : StoredClause) (a : Assignment) : Verdict :=
  match a.valueOf c.first with
  | some true => .satisfied
  | value =>
    match c.rewatch? a with
    | some c => .rewatched c
    | none => if value.isNone then .unit else .conflict

/-- Brings the last member of a list to the front. -/
def lastToFront {α : Type} (xs : List α) : List α :=
  match xs.getLast? with
  | some x => x :: xs.dropLast
  | none => []

theorem length_lastToFront {α : Type} (xs : List α) : (lastToFront xs).length = xs.length := by
  cases xs with
  | nil => rfl
  | cons x xs =>
    rw [lastToFront, List.getLast?_eq_some_getLast (List.cons_ne_nil x xs)]
    simp

/-- What a visit of watchers leaves behind. -/
structure Visit where
  /-- The number of a clause that is false, if one was met. -/
  conflict? : Option Nat
  /-- The clauses that still watch the literal. -/
  watchers : List Nat
  assignment : Assignment
  store : Store

/-- Visits the `pending` watchers of a literal that is false. The watchers in the reversed list
`kept` have been visited and stay. -/
def visit (falsified : Literal) (a : Assignment) (s : Store) (kept : List Nat) :
    List Nat → Visit
  | [] => ⟨none, kept.reverse, a, s⟩
  | key :: pending =>
    match s.clauses[key]? with
    | none => visit falsified a s kept (lastToFront pending)
    | some c =>
      let c := c.facing falsified
      let s := s.setClause key c
      match c.judge a with
      | .satisfied => visit falsified a s (key :: kept) pending
      | .rewatched c =>
        visit falsified a ((s.setClause key c).watch c.second key) kept (lastToFront pending)
      | .unit => visit falsified (a.assign c.first) s (key :: kept) pending
      | .conflict => ⟨some key, kept.reverse ++ key :: pending, a, s⟩
termination_by pending => pending.length
decreasing_by all_goals simp [length_lastToFront]

theorem openCount_add_trail_visit (falsified : Literal) (a : Assignment) (s : Store)
    (kept pending : List Nat) :
    (visit falsified a s kept pending).assignment.openCount
        + (visit falsified a s kept pending).assignment.trail.size
      = a.openCount + a.trail.size := by
  fun_induction visit falsified a s kept pending with
  | case1 => rfl
  | case2 => assumption
  | case3 => assumption
  | case4 => assumption
  | case5 a _ _ _ _ _ c _ _ _ ih => rw [ih, Assignment.openCount_add_trail_assign]
  | case6 => rfl

theorem size_trail_le_visit (falsified : Literal) (a : Assignment) (s : Store)
    (kept pending : List Nat) :
    a.trail.size ≤ (visit falsified a s kept pending).assignment.trail.size := by
  fun_induction visit falsified a s kept pending with
  | case1 => exact Nat.le_refl _
  | case2 => assumption
  | case3 => assumption
  | case4 => assumption
  | case5 a _ _ _ _ _ c _ _ _ ih =>
    exact Nat.le_trans (Assignment.size_trail_le_assign _ _) ih
  | case6 => exact Nat.le_refl _

theorem atomCount_visit (falsified : Literal) (a : Assignment) (s : Store)
    (kept pending : List Nat) :
    (visit falsified a s kept pending).assignment.atomCount = a.atomCount := by
  fun_induction visit falsified a s kept pending with
  | case1 => rfl
  | case2 => assumption
  | case3 => assumption
  | case4 => assumption
  | case5 a _ _ _ _ _ c _ _ _ ih => rw [ih, Assignment.atomCount_assign]
  | case6 => rfl

end Clausal.Search
