import Clausal.Proofs.Search.Calls

/-!
# The trail

A state tells in several places which atoms have which values: by the values, by the trail, by the
levels and by the mark of propagation. Whatever calls are made they agree, and no literal is on the
trail without a reason. A literal that is not the decision of a level was given as a clause of its
own, and then lies below all levels, or follows from a stored clause and the literals before it.
-/

namespace Clausal.Search

variable {s t : Search} {cs : List Clause} {calls : List Call} {ok : Search → Call → Prop}

/-! ## The mark of propagation -/

/-- The mark of propagation lies within the trail. -/
def Bounded (s : Search) : Prop := s.head ≤ s.assignment.trail.size

theorem bounded_withSource (config : Config) (source : Random.Source) (n : Nat) :
    (withSource config source n).Bounded :=
  Nat.zero_le _

theorem bounded_clampHead (s : Search) : s.clampHead.Bounded := Nat.min_le_right _ _

theorem bounded_backjump (target : Nat) (s : Search) : (s.backjump target).Bounded :=
  bounded_clampHead _

theorem Bounded.openLevel (h : s.Bounded) (l : Literal) (flipped : Bool) :
    (s.openLevel l flipped).Bounded :=
  Nat.le_trans h (Assignment.size_trail_le_assign _ _)

theorem Backtracked.bounded {turned : Bool} (h : Backtracked s turned t) : t.Bounded := by
  cases h with
  | @turned above below level hl habove hlevel =>
    -- the mark is put to the end of the trail before the level is opened again
    refine Bounded.openLevel (s := { (closeLevels above.length s).closed level below with
      head := ((closeLevels above.length s).closed level below).assignment.trail.size }) ?_ _ _
    exact Nat.le_refl _
  | exhausted hall => exact bounded_clampHead _

theorem bounded_backtrack (s : Search) : s.backtrack.2.Bounded := (backtrack_spec s).bounded

theorem Bounded.branch (h : s.Bounded) : s.branch.2.Bounded := by
  unfold Search.branch
  split
  · exact h
  · exact Bounded.openLevel h _ false

theorem Bounded.propagateLiteral (h : s.Bounded) (l : Literal) :
    (s.propagateLiteral l).2.Bounded :=
  Nat.le_trans h (size_trail_le_propagateLiteral s l)

theorem Bounded.propagate (h : s.Bounded) : s.propagate.2.Bounded := by
  fun_induction Search.propagate s with
  | case1 s => exact h
  | case2 s l hl key t ht =>
    have hl := h.propagateLiteral l
    rwa [ht] at hl
  | case3 s l hl t ht ih =>
    -- the mark moves past a literal of the trail
    apply ih
    have hlt := (Array.getElem?_eq_some_iff.mp hl).1
    have hsize := size_trail_le_propagateLiteral s l
    have hhead : (s.propagateLiteral l).2.head = s.head := rfl
    rw [ht] at hsize hhead
    simp only at hsize hhead
    show t.head + 1 ≤ t.assignment.trail.size
    omega

theorem stepInvariant_bounded : StepInvariant Bounded where
  restart _ _ := Nat.zero_le _
  countPass _ h := h
  countConflict _ h := h
  propagate _ h := h.propagate
  backtrack s _ := bounded_backtrack s
  branch _ h := h.branch
  mark _ h := h

theorem Bounded.addCanonical (h : s.Bounded) (c : Clause) : (s.addCanonical c).2.Bounded := by
  unfold Search.addCanonical addUnit
  split
  · exact h
  · split
    · exact h
    · exact h
    · exact Nat.le_trans h (Assignment.size_trail_le_assign _ _)
  · exact h

theorem Bounded.addClause (h : s.Bounded) (c : Clause) : (s.addClause c).2.Bounded := by
  by_cases hz : HasZero c
  · rw [addClause_of_hasZero hz]
    exact h
  · have hback := bounded_backjump 0 s
    rw [addClause_of_not_hasZero hz]
    split
    · exact hback
    · have hgrow : ((s.backjump 0).grow c.canonical.maxAtom).Bounded := hback
      exact hgrow.addCanonical _

theorem Bounded.perform (h : s.Bounded) (call : Call) : (s.perform call).2.Bounded := by
  cases call with
  | addClause c => exact h.addClause c
  | solve clock => exact stepInvariant_bounded.solve clock h
  | propagate => exact h.propagate
  | propagateLiteral l => exact h.propagateLiteral l
  | branch => exact h.branch
  | backtrack => exact bounded_backtrack s
  | backjump target => exact bounded_backjump target s

theorem Reaches.bounded (hr : Reaches ok s calls t) (h : s.Bounded) : t.Bounded := by
  induction hr with
  | refl => exact h
  | call _ _ ih => exact ih.perform _

/-! ## Every history -/

/-- The values, the trail, the levels and the mark of propagation agree, and every literal of the
trail has its reason, by the clauses given and those stored. -/
structure Coherent (cs : List Clause) (s : Search) : Prop where
  distinct : (s.assignment.trail.toList.map Literal.atom).Nodup
  value_iff : ∀ (i : Nat) (y : Bool), s.value i = some y ↔ ⟨i, y⟩ ∈ s.assignment.trail
  head_le : s.head ≤ s.assignment.trail.size
  size_le : s.assignment.trail.size ≤ s.atomCount
  starts : s.levels.Pairwise fun level below => below.start < level.start
  decisions : ∀ level ∈ s.levels, s.assignment.trail[level.start]? = some level.decision
  reasons : ∀ (i : Nat) (l : Literal), s.assignment.trail[i]? = some l →
    (∀ level ∈ s.levels, level.start ≠ i) →
      (s.Ground i ∧ ∃ c ∈ cs, c.canonical = [l]) ∨ Forced s.store.clauses s.assignment.trail i l

theorem Represents.coherent (h : Represents cs s) (hb : s.Bounded) : Coherent cs s where
  distinct := h.wellFormed.assignment.nodup
  value_iff i y := (h.wellFormed.assignment.mem_trail ⟨i, y⟩).symm
  head_le := hb
  size_le := h.wellFormed.assignment.size_trail_le
  starts := h.wellFormed.sorted
  decisions := h.wellFormed.decisions
  reasons i l hl hno := by
    rcases h.justified i l hl with ⟨level, hlevel, hstart⟩ | hreason
    · exact absurd hstart (hno level hlevel)
    · exact hreason

/-- Whatever calls are made on a new search, the trail agrees with the rest of the state and none of
its literals is without a reason. -/
theorem coherent_of_reaches (config : Config) (source : Random.Source) (n : Nat)
    (h : Reaches (fun t call => call.IsSound t) (withSource config source n) calls s) :
    Coherent (given calls) s :=
  (h.represents (represents_withSource config source n)).coherent
    (h.bounded (bounded_withSource config source n))

/-- A clause of its own, a decision that was turned round with a literal forced by it, and another
decision that has not been propagated. -/
theorem coherent_after_backtracking :
    let new := withSource .default ⟨fun _ => 0, 0⟩ 4
    let calls : List Call := [.addClause [⟨1, true⟩], .addClause [⟨2, true⟩, ⟨3, true⟩],
      .addClause [⟨2, false⟩, ⟨3, false⟩], .branch, .propagate, .backtrack, .propagate, .branch]
    let s := calls.foldl (fun s call => (s.perform call).2) new
    Reaches (fun t call => call.IsSound t) new calls s ∧
      s.assignment.trail = #[⟨1, true⟩, ⟨2, true⟩, ⟨3, false⟩, ⟨4, false⟩] ∧ s.head = 3 ∧
      s.levels = [⟨3, ⟨4, false⟩, false⟩, ⟨1, ⟨2, true⟩, true⟩] ∧ Coherent (given calls) s := by
  intro new calls s
  have h : Reaches (fun t call => call.IsSound t) new calls s :=
    (((((((Reaches.refl.call trivial).call trivial).call trivial).call trivial).call trivial).call
      trivial).call trivial).call trivial
  exact ⟨h, by decide +kernel, by decide +kernel, by decide +kernel,
    coherent_of_reaches .default ⟨fun _ => 0, 0⟩ 4 h⟩

end Clausal.Search
