import Clausal.Search.Branch

/-!
# Solving

A solve goes through passes. Each pass propagates; on a conflict it backtracks, and otherwise it
decides an atom. With nothing left to backtrack to there is no model, and with nothing left to decide
the assignment is one. Passes are counted, and each begins with a look at the clock.

The open levels are the path from the root of a binary tree of decisions to where the search is.
Every pass that does not answer moves on in this tree, below a decision or to the other side of one,
and never returns: `remaining` counts the places still ahead.
-/

namespace Clausal.Search

/-- The time that a solve has taken when the pass with a given number begins. Passes are numbered
from 1 over all solves of a search. -/
abbrev Clock := Nat → Duration

/-! ## A pass -/

/-- Counts a pass. -/
def countPass (s : Search) : Search :=
  { s with counters := { s.counters with iterations := s.counters.iterations + 1 } }

/-- Counts a conflict. -/
def countConflict (s : Search) : Search :=
  { s with counters := { s.counters with conflicts := s.counters.conflicts + 1 } }

/-- Whether the time limit has passed at the present pass. -/
def isOverdue (clock : Clock) (s : Search) : Bool :=
  s.config.limit?.any fun limit => limit < clock s.counters.iterations

/-- One pass, with the answer if it finds one. -/
def pass (clock : Clock) (s : Search) : Option Report × Search :=
  let s := s.countPass
  if s.isOverdue clock then (some .timeUp, s)
  else
    match s.propagate with
    | (some _, s) =>
      match s.countConflict.backtrack with
      | (true, s) => (none, s)
      | (false, s) => (some .unsatisfiable, { s with inconsistent := true })
    | (none, s) =>
      match s.branch with
      | (some _, s) => (none, s)
      | (none, s) => (some (.satisfiable s.assignment.literals), s)

theorem atomCount_pass (clock : Clock) (s : Search) :
    (s.pass clock).2.atomCount = s.atomCount := by
  have hp : s.countPass.propagate.2.atomCount = s.atomCount :=
    atomCount_propagate s.countPass
  unfold pass
  simp only
  split
  · rfl
  · split
    · rename_i key t h
      have hb : (countConflict t).backtrack.2.atomCount = s.atomCount := by
        rw [← hp, h]
        exact atomCount_backtrackThrough _ _
      split <;> rename_i t' h' <;> rw [h'] at hb <;> exact hb
    · rename_i t h
      have hb : t.branch.2.atomCount = s.atomCount := by
        rw [← hp, h]
        exact atomCount_branch t
      split <;> rename_i t' h' <;> rw [h'] at hb <;> exact hb

/-! ## The places ahead -/

/-- The number of places in a full binary tree of a height. -/
def treeSize : Nat → Nat
  | 0 => 1
  | height + 1 => 2 * treeSize height + 1

/-- The number of places at and below one at depth `d`, in a tree of height `n + 1`. -/
def placesBelow (n d : Nat) : Nat := treeSize (n + 1 - d)

/-- The places below the other sides of the levels that have not been turned round. -/
def placesAside (n : Nat) : List Level → Nat
  | [] => 0
  | level :: below =>
    (if level.flipped then 0 else placesBelow n (below.length + 1)) + placesAside n below

/-- The places that a search with these open levels has not left yet. -/
def placesAhead (n : Nat) (levels : List Level) : Nat :=
  placesBelow n levels.length + placesAside n levels

def remaining (s : Search) : Nat := placesAhead s.atomCount s.levels

theorem treeSize_pos (height : Nat) : 0 < treeSize height := by
  cases height with
  | zero => decide
  | succ height => simp only [treeSize]; omega

theorem placesBelow_eq {n d : Nat} (h : d ≤ n) :
    placesBelow n d = 2 * placesBelow n (d + 1) + 1 := by
  have hs : n + 1 - d = (n + 1 - (d + 1)) + 1 := by omega
  simp only [placesBelow, hs, treeSize]

theorem placesAside_append (n : Nat) (above below : List Level) :
    placesAside n below ≤ placesAside n (above ++ below) := by
  induction above with
  | nil => exact Nat.le_refl _
  | cons level above ih =>
    simp only [List.cons_append, placesAside]
    omega

/-- A decision moves on to a place below. -/
theorem placesAhead_open {n : Nat} {levels : List Level} {level : Level}
    (h : levels.length ≤ n) (hf : level.flipped = false) :
    placesAhead n (level :: levels) < placesAhead n levels := by
  have hb := placesBelow_eq h
  simp only [placesAhead, placesAside, hf, List.length_cons, Bool.false_eq_true, ↓reduceIte]
  omega

/-- Turning a level round moves on to a place on its other side. -/
theorem placesAhead_flip (n : Nat) {above below : List Level} {level level' : Level}
    (hf : level.flipped = false) (hf' : level'.flipped = true) :
    placesAhead n (level' :: below) < placesAhead n (above ++ level :: below) := by
  have hpos : 0 < placesBelow n (above ++ level :: below).length := treeSize_pos _
  have haside := placesAside_append n above (level :: below)
  simp only [placesAside, hf, Bool.false_eq_true, ↓reduceIte] at haside
  simp only [placesAhead, placesAside, hf', List.length_cons, ↓reduceIte]
  omega

/-- A pass without an answer turns a level round, or opens one. -/
theorem levels_pass {clock : Clock} {s s' : Search} (h : s.pass clock = (none, s')) :
    (∃ above level below level', s.levels = above ++ level :: below ∧ level.flipped = false ∧
        s'.levels = level' :: below ∧ level'.flipped = true) ∨
      ∃ level, s'.levels = level :: s.levels ∧ level.flipped = false := by
  have hlevels : s.countPass.propagate.2.levels = s.levels := levels_propagate s.countPass
  unfold pass at h
  simp only at h
  split at h
  · simp at h
  · split at h
    · rename_i key t ht
      rw [ht] at hlevels
      rw [← hlevels]
      split at h
      · rename_i u hu
        obtain ⟨_, rfl⟩ := Prod.mk.inj h
        exact .inl (levels_backtrackThrough hu)
      · simp at h
    · rename_i t ht
      rw [ht] at hlevels
      rw [← hlevels]
      split at h
      · rename_i l u hu
        obtain ⟨_, rfl⟩ := Prod.mk.inj h
        exact .inr (levels_branch hu)
      · simp at h

/-- A pass without an answer leaves places behind. -/
theorem remaining_pass {clock : Clock} {s s' : Search} (hdepth : s.level ≤ s.atomCount)
    (h : s.pass clock = (none, s')) : s'.remaining < s.remaining := by
  have hcount : s'.atomCount = s.atomCount := by
    rw [← atomCount_pass clock s, h]
  simp only [remaining, hcount]
  rcases levels_pass h with ⟨above, level, below, level', ha, hf, hs, hf'⟩ | ⟨level, hs, hf⟩
  · rw [hs, ha]
    exact placesAhead_flip _ hf hf'
  · rw [hs]
    exact placesAhead_open hdepth hf

/-! ## All passes -/

/-- Goes through passes until one answers. There is a level for an atom at most; a search with more
levels than atoms is given up without an answer. -/
def run (clock : Clock) (s : Search) : Report × Search :=
  if _hdepth : s.level ≤ s.atomCount then
    match _h : s.pass clock with
    | (some report, s) => (report, s)
    | (none, s) => run clock s
  else (.timeUp, s)
termination_by s.remaining
decreasing_by exact remaining_pass _hdepth _h

/-- Closes every level and queues the whole trail for propagation. Clauses that are known to have no
model are answered at once. -/
def restart (s : Search) : Option Report × Search :=
  if s.inconsistent then (some .unsatisfiable, s)
  else (none, { s.backjump 0 with head := 0 })

/-- Solves the clauses added so far, from the start. -/
def solve (clock : Clock) (s : Search) : Report × Search :=
  match s.restart with
  | (some report, s) => (report, s)
  | (none, s) => run clock s

end Clausal.Search
