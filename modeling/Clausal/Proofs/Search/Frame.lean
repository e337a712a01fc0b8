import Clausal.Proofs.Search.Steps

/-!
# What steps leave alone

No step changes the configuration. The steps of a solve leave the mark of inconsistency alone as
well, and adding a clause never takes it away. Of the steps of a solve only a decision is counted,
as a decision; passes and conflicts are counted apart from them. Going back keeps the atoms.
-/

namespace Clausal.Search

variable {s t : Search} {c : Clause}

/-! ## Steps of a solve -/

/-- The configuration and the mark of inconsistency are the same. -/
structure Keeps (s t : Search) : Prop where
  config : t.config = s.config
  inconsistent : t.inconsistent = s.inconsistent

theorem keeps_propagate (s : Search) : Keeps s s.propagate.2 := by
  fun_induction propagate s with
  | case1 s => exact ⟨rfl, rfl⟩
  | case2 s l hl key t ht =>
    have hkeep : Keeps s (s.propagateLiteral l).2 := ⟨rfl, rfl⟩
    rwa [ht] at hkeep
  | case3 s l hl t ht ih =>
    have hkeep : Keeps s (s.propagateLiteral l).2 := ⟨rfl, rfl⟩
    rw [ht] at hkeep
    exact ⟨ih.config.trans hkeep.config, ih.inconsistent.trans hkeep.inconsistent⟩

theorem keeps_closeLevels (n : Nat) (s : Search) : Keeps s (closeLevels n s) :=
  closeLevels_induction (P := Keeps s) (fun _ _ _ h _ => ⟨h.config, h.inconsistent⟩) n ⟨rfl, rfl⟩

theorem keeps_backjump (target : Nat) (s : Search) : Keeps s (s.backjump target) :=
  have h := keeps_closeLevels (s.level - target) s
  ⟨h.config, h.inconsistent⟩

theorem Backtracked.keeps {turned : Bool} (h : Backtracked s turned t) : Keeps s t := by
  cases h with
  | @turned above below level hl habove hlevel =>
    have h := keeps_closeLevels above.length s
    exact ⟨h.config, h.inconsistent⟩
  | exhausted hall =>
    have h := keeps_closeLevels s.level s
    exact ⟨h.config, h.inconsistent⟩

theorem keeps_backtrack (s : Search) : Keeps s s.backtrack.2 := (backtrack_spec s).keeps

theorem keeps_branch (s : Search) : Keeps s s.branch.2 := by
  unfold branch
  split <;> exact ⟨rfl, rfl⟩

/-! ## Counters -/

theorem counters_propagate (s : Search) : s.propagate.2.counters = s.counters := by
  fun_induction propagate s with
  | case1 s => rfl
  | case2 s l hl key t ht =>
    have hkeep : (s.propagateLiteral l).2.counters = s.counters := rfl
    rwa [ht] at hkeep
  | case3 s l hl t ht ih =>
    have hkeep : (s.propagateLiteral l).2.counters = s.counters := rfl
    rw [ht] at hkeep
    exact ih.trans hkeep

theorem counters_closeLevels (n : Nat) (s : Search) : (closeLevels n s).counters = s.counters :=
  closeLevels_induction (P := fun t => t.counters = s.counters) (fun _ _ _ h _ => h) n rfl

theorem Backtracked.counters_eq {turned : Bool} (h : Backtracked s turned t) :
    t.counters = s.counters := by
  cases h with
  | @turned above below level hl habove hlevel => exact counters_closeLevels above.length s
  | exhausted hall => exact counters_closeLevels s.level s

/-- A decision is not counted as a pass. -/
theorem iterations_branch (s : Search) :
    s.branch.2.counters.iterations = s.counters.iterations := by
  unfold branch
  split <;> rfl

/-- A decision is not counted as a conflict. -/
theorem conflicts_branch (s : Search) :
    s.branch.2.counters.conflicts = s.counters.conflicts := by
  unfold branch
  split <;> rfl

theorem counters_addClause (s : Search) (c : Clause) :
    (s.addClause c).2.counters = s.counters := by
  have hback : (s.backjump 0).counters = s.counters := counters_closeLevels (s.level - 0) s
  by_cases hz : HasZero c
  · rw [addClause_of_hasZero hz]
  · rw [addClause_of_not_hasZero hz]
    split
    · exact hback
    · unfold addCanonical addUnit
      split
      · exact hback
      · split <;> exact hback
      · exact hback

/-! ## Atoms -/

theorem atomCount_closeLevels (n : Nat) (s : Search) : (closeLevels n s).atomCount = s.atomCount :=
  closeLevels_induction (P := fun t => t.atomCount = s.atomCount)
    (fun t level _ h _ => (atomCount_unwind t level.start).trans h) n rfl

theorem atomCount_backjump (target : Nat) (s : Search) :
    (s.backjump target).atomCount = s.atomCount :=
  atomCount_closeLevels (s.level - target) s

theorem atomCount_addCanonical (s : Search) (c : Clause) :
    (s.addCanonical c).2.atomCount = s.atomCount := by
  unfold addCanonical
  split
  · rfl
  · unfold addUnit
    split
    · rfl
    · rfl
    · exact Assignment.atomCount_assign _ _
  · rfl

/-- A clause that is no tautology brings its atoms with it. -/
theorem Represents.atomCount_addClause {cs : List Clause} (h : Represents cs s)
    (hz : ¬ HasZero c) : (s.addClause c).2.atomCount
      = if c.canonical.hasComplement then s.atomCount else max s.atomCount c.maxAtom := by
  have hback := atomCount_backjump 0 s
  rw [addClause_of_not_hasZero hz]
  split
  · exact hback
  · rw [atomCount_addCanonical, ← hback, ← Clause.maxAtom_canonical c]
    exact Assignment.atomCount_grow (h.backjump 0).wellFormed.assignment _

/-! ## Adding a clause -/

/-- The configuration is the same, and so is the mark of inconsistency once it is set. -/
structure Persists (s t : Search) : Prop where
  config : t.config = s.config
  inconsistent : s.inconsistent = true → t.inconsistent = true

theorem Keeps.persists (h : Keeps s t) : Persists s t :=
  ⟨h.config, fun hi => h.inconsistent.trans hi⟩

/-- What adding a clause without zeros can do: it is answered to contradict the others, and the mark
is set, or it is taken up, and the mark stays. -/
inductive Added (s : Search) : Except OracleError Unit → Search → Prop
  | taken {t : Search} (h : Keeps s t) : Added s (.ok ()) t
  | contradicting {t : Search} (hconfig : t.config = s.config) (hmark : t.inconsistent = true) :
      Added s (.error .contradiction) t

theorem Added.of_keeps {u : Search} {r : Except OracleError Unit} (h : Added t r u)
    (hkeep : Keeps s t) : Added s r u := by
  cases h with
  | taken h => exact .taken ⟨h.config.trans hkeep.config, h.inconsistent.trans hkeep.inconsistent⟩
  | contradicting hconfig hmark => exact .contradicting (hconfig.trans hkeep.config) hmark

theorem Added.persists {r : Except OracleError Unit} (h : Added s r t) : Persists s t := by
  cases h with
  | taken h => exact h.persists
  | contradicting hconfig hmark => exact ⟨hconfig, fun _ => hmark⟩

theorem addUnit_spec (s : Search) (l : Literal) : Added s (s.addUnit l).1 (s.addUnit l).2 := by
  unfold addUnit
  split
  · exact .taken ⟨rfl, rfl⟩
  · exact .contradicting rfl rfl
  · exact .taken ⟨rfl, rfl⟩

theorem addCanonical_spec (s : Search) (c : Clause) :
    Added s (s.addCanonical c).1 (s.addCanonical c).2 := by
  unfold addCanonical
  split
  · exact .contradicting rfl rfl
  · exact addUnit_spec s _
  · exact .taken ⟨rfl, rfl⟩

theorem addClause_spec (hz : ¬ HasZero c) : Added s (s.addClause c).1 (s.addClause c).2 := by
  have hback := keeps_backjump 0 s
  rw [addClause_of_not_hasZero hz]
  split
  · exact .taken hback
  · exact (addCanonical_spec _ _).of_keeps ⟨hback.config, hback.inconsistent⟩

theorem persists_addClause (s : Search) (c : Clause) : Persists s (s.addClause c).2 := by
  by_cases hz : HasZero c
  · rw [addClause_of_hasZero hz]
    exact ⟨rfl, id⟩
  · exact (addClause_spec hz).persists

/-- A clause is added with no level open. -/
theorem levels_addClause (hz : ¬ HasZero c) : (s.addClause c).2.levels = [] := by
  have hback := levels_backjump_zero s
  rw [addClause_of_not_hasZero hz]
  split
  · exact hback
  · unfold addCanonical addUnit
    split
    · exact hback
    · split <;> exact hback
    · exact hback

/-- The answer that a clause contradicts the others comes with the mark that says so. -/
theorem inconsistent_of_contradiction (h : (s.addClause c).1 = .error .contradiction) :
    (s.addClause c).2.inconsistent = true := by
  by_cases hz : HasZero c
  · rw [addClause_of_hasZero hz] at h
    cases h
  · have hspec := addClause_spec (s := s) hz
    rw [h] at hspec
    cases hspec with
    | contradicting hconfig hmark => exact hmark

/-- A clause that sets the mark is answered to contradict the others. -/
theorem contradiction_of_inconsistent (hi : s.inconsistent = false)
    (h : (s.addClause c).2.inconsistent = true) : (s.addClause c).1 = .error .contradiction := by
  by_cases hz : HasZero c
  · rw [addClause_of_hasZero hz, hi] at h
    cases h
  · have hspec := addClause_spec (s := s) hz
    generalize s.addClause c = r at h hspec ⊢
    obtain ⟨answer, t⟩ := r
    cases hspec with
    | taken hkeep =>
      have hunmarked : t.inconsistent = false := hkeep.inconsistent.trans hi
      change t.inconsistent = true at h
      rw [hunmarked] at h
      cases h
    | contradicting hconfig hmark => rfl

end Clausal.Search
