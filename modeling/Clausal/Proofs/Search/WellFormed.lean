import Clausal.Proofs.Search.Calls

/-!
# States stay well-formed

Whether a literal that is propagated by a call of its own is true matters for what a state stands
for, but not for how its parts fit together: every call keeps a state well-formed.
-/

namespace Clausal.Search

variable {s t : Search} {c : Clause} {l : Literal} {calls : List Call} {ok : Search → Call → Prop}

/-! ## Steps of a solve -/

theorem WellFormed.propagate (h : s.WellFormed) : s.propagate.2.WellFormed :=
  (wellFormed_extends_propagate h).1

theorem WellFormed.backjump (h : s.WellFormed) (target : Nat) : (s.backjump target).WellFormed :=
  (h.closeLevels (s.level - target)).of_eq rfl rfl rfl

theorem WellFormed.turned (h : s.WellFormed) {level : Level} {below : List Level}
    (hl : s.levels = level :: below) : (s.turned level below).WellFormed := by
  obtain ⟨ho, h0⟩ := h.isOpen_closed hl
  rw [← Literal.atom_neg] at ho h0
  have hclosed : WellFormed { s.closed level below with
      head := (s.closed level below).assignment.trail.size } := (h.closed hl).of_eq rfl rfl rfl
  exact hclosed.openLevel ho h0 true

theorem WellFormed.backtrack (h : s.WellFormed) : s.backtrack.2.WellFormed := by
  have hspec := backtrack_spec s
  generalize s.backtrack = r at hspec ⊢
  obtain ⟨turned, t⟩ := r
  cases hspec with
  | @turned above below level hl habove hlevel =>
    exact (h.closeLevels above.length).turned (levels_closeLevels_append hl)
  | exhausted hall => exact (h.closeLevels s.level).of_eq rfl rfl rfl

theorem WellFormed.branch (h : s.WellFormed) : s.branch.2.WellFormed := by
  have hspec := branch_spec h
  generalize s.branch = r at hspec ⊢
  obtain ⟨l?, t⟩ := r
  cases hspec with
  | @opened l source counters ho h0 =>
    have hdrawn : WellFormed { s with source, counters } := h.of_eq rfl rfl rfl
    exact hdrawn.openLevel ho h0 false
  | complete hopen => exact h.of_eq rfl rfl rfl

/-! ## Adding a clause -/

theorem WellFormed.addUnit (h : s.WellFormed) (hlevels : s.levels = [])
    (hr : 0 < l.atom ∧ l.atom ≤ s.assignment.atomCount) : (s.addUnit l).2.WellFormed := by
  unfold Search.addUnit
  split
  · exact h
  · exact h.of_eq rfl rfl rfl
  · rename_i hv
    have hopen : s.assignment.IsOpen l.atom := by
      rw [Assignment.isOpen_iff, Assignment.atomCount_eq h.assignment]
      exact ⟨by omega, Assignment.valueOf_eq_none_iff.mp hv⟩
    exact h.assign hlevels hopen (by omega)

theorem WellFormed.addCanonical (h : s.WellFormed) (hlevels : s.levels = [])
    (hp : c.Proper s.assignment.atomCount) : (s.addCanonical c).2.WellFormed := by
  have hperm := perm_falseLast s.assignment c
  unfold Search.addCanonical
  split
  · exact h.of_eq rfl rfl rfl
  · rename_i l heq
    rw [heq, List.singleton_perm] at hperm
    exact h.addUnit hlevels (hp.range l (by simp [hperm.symm]))
  · rename_i first second rest heq
    rw [heq] at hperm
    exact ⟨h.assignment, h.store.add (hp.perm hperm), h.sorted, h.decisions⟩

theorem WellFormed.addClause (h : s.WellFormed) (c : Clause) : (s.addClause c).2.WellFormed := by
  by_cases hz : HasZero c
  · rw [addClause_of_hasZero hz]
    exact h
  · have hback := h.backjump 0
    rw [addClause_of_not_hasZero hz]
    split
    · exact hback
    · rename_i ht
      refine (hback.grow _).addCanonical (levels_backjump_zero s) ?_
      have hp := Clause.proper_canonical (by simpa using ht) fun l hl h0 => hz ⟨l, hl, h0⟩
      refine hp.mono ?_
      show _ ≤ ((s.backjump 0).assignment.grow c.canonical.maxAtom).atomCount
      rw [Assignment.atomCount_grow hback.assignment]
      exact Nat.le_max_right _ _

/-! ## Solving -/

theorem stepInvariant_wellFormed : StepInvariant WellFormed where
  restart _ h := (h.backjump 0).of_eq rfl rfl rfl
  countPass _ h := h.of_eq rfl rfl rfl
  countConflict _ h := h.of_eq rfl rfl rfl
  propagate _ h := h.propagate
  backtrack _ h := h.backtrack
  branch _ h := h.branch
  mark _ h := h.of_eq rfl rfl rfl

/-! ## Every history -/

theorem WellFormed.perform (h : s.WellFormed) (call : Call) : (s.perform call).2.WellFormed := by
  cases call with
  | addClause c => exact h.addClause c
  | solve clock => exact stepInvariant_wellFormed.solve clock h
  | propagate => exact h.propagate
  | propagateLiteral l => exact h.propagateLiteral l
  | branch => exact h.branch
  | backtrack => exact h.backtrack
  | backjump target => exact h.backjump target

/-- Whatever calls are made, the state they lead to is well-formed. -/
theorem Reaches.wellFormed (hr : Reaches ok s calls t) (h : s.WellFormed) : t.WellFormed := by
  induction hr with
  | refl => exact h
  | call _ _ ih => exact ih.perform _

end Clausal.Search
