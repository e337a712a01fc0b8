import Clausal.Search

/-!
# Going back

Going back closes levels, from the latest on, and takes the values assigned since from the atoms.
A backjump closes every level above a given one. Backtracking closes levels up to the first that has
not been turned round, and opens that one again with the other polarity.
-/

namespace Clausal.Search

/-- Takes the values of the trail literals after the first `length` from their atoms. -/
def unwind (s : Search) (length : Nat) : Search :=
  { s with assignment := s.assignment.unwind length }

/-- Keeps the mark of propagation within the trail. -/
def clampHead (s : Search) : Search :=
  { s with head := min s.head s.assignment.trail.size }

/-- Closes a number of levels. -/
def closeLevels : Nat → Search → Search
  | 0, s => s
  | n + 1, s =>
    match s.levels with
    | [] => s
    | level :: below => closeLevels n { s.unwind level.start with levels := below }

/-- Closes every level above the given one. -/
def backjump (s : Search) (target : Nat) : Search :=
  (closeLevels (s.level - target) s).clampHead

/-- Opens a level with a decision at the end of the trail. -/
def openLevel (s : Search) (decision : Literal) (flipped : Bool) : Search :=
  { s with levels := ⟨s.assignment.trail.size, decision, flipped⟩ :: s.levels }.assign decision

/-- Backtracks through the given levels, which are those of the search. -/
def backtrackThrough : List Level → Search → Bool × Search
  | [], s => (false, { s with levels := [] }.clampHead)
  | level :: below, s =>
    let s := s.unwind level.start
    if level.flipped then backtrackThrough below s
    else
      (true, { s with levels := below, head := s.assignment.trail.size }.openLevel
        (-level.decision) true)

/-- Turns round the latest level that has not been turned round, closing those above it. If there is
none, closes every level and returns false. -/
def backtrack (s : Search) : Bool × Search := backtrackThrough s.levels s

/-! ## What is left after going back -/

theorem atomCount_unwind (s : Search) (length : Nat) : (s.unwind length).atomCount = s.atomCount :=
  Assignment.atomCount_unwind _ _

theorem atomCount_openLevel (s : Search) (decision : Literal) (flipped : Bool) :
    (s.openLevel decision flipped).atomCount = s.atomCount :=
  Assignment.atomCount_assign _ _

theorem atomCount_backtrackThrough (levels : List Level) (s : Search) :
    (backtrackThrough levels s).2.atomCount = s.atomCount := by
  induction levels generalizing s with
  | nil => rfl
  | cons level below ih =>
    unfold backtrackThrough
    split
    · rw [ih, atomCount_unwind]
    · exact (atomCount_openLevel _ _ _).trans (atomCount_unwind s level.start)

/-- A level that was turned round replaces one that had not been. -/
theorem levels_backtrackThrough {levels : List Level} {s s' : Search}
    (h : backtrackThrough levels s = (true, s')) :
    ∃ above level below level', levels = above ++ level :: below ∧ level.flipped = false ∧
      s'.levels = level' :: below ∧ level'.flipped = true := by
  induction levels generalizing s with
  | nil => simp [backtrackThrough] at h
  | cons level below ih =>
    unfold backtrackThrough at h
    split at h
    · obtain ⟨above, l, bs, l', rfl, hl⟩ := ih h
      exact ⟨level :: above, l, bs, l', rfl, hl⟩
    · rename_i hf
      obtain ⟨_, rfl⟩ := Prod.mk.inj h
      exact ⟨[], level, below, _, rfl, by simpa using hf, rfl, rfl⟩

end Clausal.Search
