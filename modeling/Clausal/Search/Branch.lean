import Clausal.Search.Levels

/-!
# Decisions

A decision takes an atom without a value and opens a level with one of its literals. The atom is the
first such atom, or with the probability of the decision bias one of them all alike. With phase
saving the atom takes the value it had last; otherwise, and if it never had one, it is made true with
the probability of the polarity lean.
-/

namespace Clausal.Search

/-- The index of the atom to decide, if an atom is without a value. -/
def chooseAtom (s : Search) : Option Nat × Random.Source :=
  let bias := s.config.decisionBias.value
  if .zero < bias then
    let (atRandom, source) := s.source.drawBool bias
    if atRandom then source.choose? s.assignment.openAtoms
    else (s.assignment.firstOpen?, source)
  else (s.assignment.firstOpen?, s.source)

/-- The value that phase saving gives the atom of an index. -/
def savedValue (s : Search) (index : Nat) : Option Bool :=
  if s.config.phaseSaving.value then s.assignment.saved[index]?.join else none

/-- The polarity in which to decide the atom of an index. -/
def choosePolarity (s : Search) (index : Nat) : Bool × Random.Source :=
  match s.savedValue index with
  | some polarity => (polarity, s.source)
  | none => s.source.drawBool s.config.polarityBias.value

/-- Decides an atom, if one is without a value, and returns the literal decided. -/
def branch (s : Search) : Option Literal × Search :=
  match s.chooseAtom with
  | (none, source) => (none, { s with source })
  | (some index, source) =>
    let (polarity, source) := { s with source }.choosePolarity index
    let counters := { s.counters with decisions := s.counters.decisions + 1 }
    (some ⟨index, polarity⟩, { s with source, counters }.openLevel ⟨index, polarity⟩ false)

/-- A decision opens one level, which has not been turned round. -/
theorem levels_branch {s s' : Search} {l : Literal} (h : s.branch = (some l, s')) :
    ∃ level, s'.levels = level :: s.levels ∧ level.flipped = false := by
  unfold branch at h
  split at h
  · simp at h
  · obtain ⟨_, rfl⟩ := Prod.mk.inj h
    exact ⟨_, rfl, rfl⟩

theorem atomCount_branch (s : Search) : s.branch.2.atomCount = s.atomCount := by
  unfold branch
  split
  · rfl
  · exact atomCount_openLevel _ _ _

end Clausal.Search
