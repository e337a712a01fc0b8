import Clausal.Proofs.Search.WellFormed

/-!
# Going back to where a level was opened

Once a decision has opened a level, steps that stay above the levels there were before cannot take
away anything the state had then. They add to its trail, open and close levels on top of its own
and rearrange the literals of stored clauses. So closing the levels on top restores the trail, the
values and the levels, whatever was done in between.

The level opened first need not stay: backtracking may replace it by its other side. What stays is
that the lowest of the levels on top starts where the trail of the state ends.
-/

namespace Clausal

namespace Search

/-- The call is a step of a solve. -/
def Call.IsStep : Call → Prop
  | .addClause _ | .solve _ => False
  | .propagate | .propagateLiteral _ | .branch | .backtrack | .backjump _ => True

variable {s t u : Search} {l : Literal} {level : Level} {below : List Level} {call : Call}
  {calls steps : List Call}

/-! ## States on top of another -/

/-- A state has kept what `s` has on its trail and among its clauses. -/
structure Retains (s t : Search) : Prop where
  wellFormed : t.WellFormed
  atomCount : t.atomCount = s.atomCount
  trail : s.assignment.trail.toList <+: t.assignment.trail.toList
  clauses : Rearranged s.store.clauses t.store.clauses

/-- A state has open levels on top of those of `s`, and has kept the rest of `s` below them. -/
structure Above (s t : Search) : Prop extends Retains s t where
  levels : ∃ above base, t.levels = above ++ base :: s.levels ∧
    base.start = s.assignment.trail.size

/-- A state has the trail and the levels of `s`, and its clauses but for the order of literals. -/
structure Restored (s t : Search) : Prop extends Retains s t where
  size : t.assignment.trail.size = s.assignment.trail.size
  levels : t.levels = s.levels

theorem Retains.of_eq (h : Retains s t) (ha : u.assignment = t.assignment)
    (hs : u.store = t.store) (hl : u.levels = t.levels) : Retains s u where
  wellFormed := h.wellFormed.of_eq ha hs hl
  atomCount := by rw [Search.atomCount, ha]; exact h.atomCount
  trail := by rw [ha]; exact h.trail
  clauses := by rw [hs]; exact h.clauses

theorem Above.of_eq (h : Above s t) (ha : u.assignment = t.assignment) (hs : u.store = t.store)
    (hl : u.levels = t.levels) : Above s u :=
  ⟨h.toRetains.of_eq ha hs hl, by rw [hl]; exact h.levels⟩

theorem Restored.of_eq (h : Restored s t) (ha : u.assignment = t.assignment)
    (hs : u.store = t.store) (hl : u.levels = t.levels) : Restored s u :=
  ⟨h.toRetains.of_eq ha hs hl, by rw [ha]; exact h.size, by rw [hl]; exact h.levels⟩

theorem Restored.refl (h : s.WellFormed) : Restored s s :=
  ⟨⟨h, rfl, List.prefix_refl _, Pointwise.refl (fun _ => List.Perm.refl _) _⟩, rfl, rfl⟩

theorem Restored.trail_eq (h : Restored s t) : t.assignment.trail = s.assignment.trail :=
  Array.toList_inj.mp (h.trail.eq_of_length (by simp [h.size])).symm

/-- The values follow from the trail. -/
theorem Restored.values_eq (h : Restored s t) (hs : s.WellFormed) :
    t.assignment.values = s.assignment.values :=
  h.wellFormed.assignment.values_eq hs.assignment h.atomCount h.trail_eq

theorem Above.level_lt (h : Above s t) : s.level < t.level := by
  obtain ⟨above, base, hlevels, -⟩ := h.levels
  rw [Search.level, Search.level, hlevels, List.length_append, List.length_cons]
  omega

/-! ## Opening a level -/

theorem Retains.openLevel (h : Retains s t) (ho : t.assignment.IsOpen l.atom) (h0 : l.atom ≠ 0)
    (flipped : Bool) : Retains s (t.openLevel l flipped) where
  wellFormed := h.wellFormed.openLevel ho h0 flipped
  atomCount := (atomCount_openLevel t l flipped).trans h.atomCount
  trail := h.trail.trans (Assignment.isPrefix_assign t.assignment l)
  clauses := h.clauses

theorem Restored.openLevel (h : Restored s t) (ho : t.assignment.IsOpen l.atom)
    (h0 : l.atom ≠ 0) (flipped : Bool) : Above s (t.openLevel l flipped) :=
  ⟨h.toRetains.openLevel ho h0 flipped, [], _, congrArg (List.cons _) h.levels, h.size⟩

theorem Above.openLevel (h : Above s t) (ho : t.assignment.IsOpen l.atom) (h0 : l.atom ≠ 0)
    (flipped : Bool) : Above s (t.openLevel l flipped) := by
  obtain ⟨above, base, hlevels, hstart⟩ := h.levels
  exact ⟨h.toRetains.openLevel ho h0 flipped, _ :: above, base, congrArg (List.cons _) hlevels,
    hstart⟩

/-! ## Propagation -/

theorem Above.propagateLiteral (h : Above s t) (l : Literal) :
    Above s (t.propagateLiteral l).2 := by
  obtain ⟨_, _, hv, -, -⟩ := visiting_propagateLiteral h.wellFormed l
  exact ⟨⟨h.wellFormed.propagateLiteral l, (atomCount_propagateLiteral t l).trans h.atomCount,
    h.trail.trans hv.trail, h.clauses.trans hv.rearranged⟩, h.levels⟩

theorem Above.propagate (h : Above s t) : Above s t.propagate.2 := by
  obtain ⟨hw, he⟩ := wellFormed_extends_propagate h.wellFormed
  refine ⟨⟨hw, (atomCount_propagate t).trans h.atomCount, h.trail.trans he.trail,
    h.clauses.trans he.clauses⟩, ?_⟩
  rw [he.levels]
  exact h.levels

/-! ## Closing levels -/

theorem Retains.closed (h : Retains s t) (hl : t.levels = level :: below)
    (hstart : s.assignment.trail.size ≤ level.start) : Retains s (t.closed level below) where
  wellFormed := h.wellFormed.closed hl
  atomCount := (atomCount_unwind t level.start).trans h.atomCount
  trail := by
    show _ <+: (t.assignment.unwind level.start).trail.toList
    rw [Assignment.trail_unwind]
    exact List.prefix_take_iff.mpr ⟨h.trail, by rwa [Array.length_toList]⟩
  clauses := h.clauses

/-- Closing the lowest level on top restores the state, and closing another stays above it. -/
theorem Above.closed (h : Above s t) (hl : t.levels = level :: below) :
    Restored s (t.closed level below) ∨ Above s (t.closed level below) := by
  obtain ⟨above, base, hlevels, hstart⟩ := h.levels
  rw [hl] at hlevels
  cases above with
  | nil =>
    obtain ⟨rfl, rfl⟩ := List.cons.inj hlevels
    refine .inl ⟨h.toRetains.closed hl (Nat.le_of_eq hstart.symm), ?_, rfl⟩
    have hsize := h.trail.length_le
    show (t.assignment.unwind level.start).trail.size = _
    rw [← Array.length_toList, Assignment.trail_unwind, List.length_take, hstart]
    rw [Array.length_toList] at hsize
    omega
  | cons top above =>
    obtain ⟨rfl, rfl⟩ := List.cons.inj hlevels
    -- the level closed is above the lowest one, and so starts later
    have hsorted := h.wellFormed.sorted
    rw [hl] at hsorted
    have hlt : base.start < level.start := (List.pairwise_cons.mp hsorted).1 base (by simp)
    exact .inr ⟨h.toRetains.closed hl (by omega), above, base, rfl, hstart⟩

theorem Above.closeLevels (h : Above s t) (n : Nat) (hn : s.level + n ≤ t.level) :
    Restored s (closeLevels n t) ∨ Above s (closeLevels n t) := by
  induction n generalizing t with
  | zero => exact .inr h
  | succ n ih =>
    cases hl : t.levels with
    | nil =>
      have hlevel : t.level = 0 := congrArg List.length hl
      omega
    | cons level below =>
      have hlevel : t.level = below.length + 1 := congrArg List.length hl
      rw [closeLevels_cons n hl]
      rcases h.closed hl with hrestored | habove
      -- the lowest level on top was closed, so it was the last one to close
      · have hbelow : below.length = s.level := congrArg List.length hrestored.levels
        obtain rfl : n = 0 := by omega
        exact .inl hrestored
      · exact ih habove (show s.level + n ≤ below.length by omega)

theorem level_closeLevels (n : Nat) (s : Search) : (closeLevels n s).level = s.level - n := by
  rw [Search.level, levels_closeLevels, List.length_drop, ← Search.level]

/-- Fewer levels are closed than there are on top. -/
theorem Above.above_closeLevels (h : Above s t) {n : Nat} (hn : s.level + n < t.level) :
    Above s (Search.closeLevels n t) := by
  refine (h.closeLevels n (by omega)).resolve_left fun hrestored => ?_
  have hlevel : (Search.closeLevels n t).level = s.level := congrArg List.length hrestored.levels
  rw [level_closeLevels] at hlevel
  omega

/-- All the levels on top are closed. -/
theorem Above.restored_backjump (h : Above s t) : Restored s (t.backjump s.level) := by
  have hlt := h.level_lt
  have hclosed := (h.closeLevels (t.level - s.level) (by omega)).resolve_right fun habove => by
    have := habove.level_lt
    rw [level_closeLevels] at this
    omega
  exact hclosed.of_eq rfl rfl rfl

/-! ## Steps -/

/-- The level turned round is the lowest one on top or lies above it. -/
theorem Above.turned (h : Above s t) (hl : t.levels = level :: below) :
    Above s (t.turned level below) := by
  obtain ⟨ho, h0⟩ := h.wellFormed.isOpen_closed hl
  rw [← Literal.atom_neg] at ho h0
  let u : Search := { t.closed level below with
    head := (t.closed level below).assignment.trail.size }
  show Above s (u.openLevel (-level.decision) true)
  rcases h.closed hl with hrestored | habove
  · have hmarked : Restored s u := hrestored.of_eq rfl rfl rfl
    exact hmarked.openLevel ho h0 true
  · have hmarked : Above s u := habove.of_eq rfl rfl rfl
    exact hmarked.openLevel ho h0 true

theorem Above.backtracked {turned : Bool} (h : Above s t) (hb : Backtracked t turned u)
    (hlevel : s.level < u.level) : Above s u := by
  cases hb with
  | @turned above below level hl _ _ =>
    have hu : s.level < below.length + 1 := hlevel
    have ht : t.level = above.length + (below.length + 1) := by
      rw [Search.level, hl, List.length_append, List.length_cons]
    exact (h.above_closeLevels (n := above.length) (by omega)).turned
      (levels_closeLevels_append hl)
  | exhausted _ =>
    have hu : s.level < (Search.closeLevels t.level t).level := hlevel
    rw [level_closeLevels] at hu
    omega

theorem Above.branched {l? : Option Literal} (h : Above s t) (hb : Branched t l? u) :
    Above s u := by
  cases hb with
  | @opened l source counters ho h0 =>
    have hdrawn : Above s { t with source, counters } := h.of_eq rfl rfl rfl
    exact hdrawn.openLevel ho h0 false
  | complete _ => exact h.of_eq rfl rfl rfl

/-- A step that ends above the levels of a state keeps what is below. -/
theorem Above.perform (h : Above s t) (hstep : call.IsStep)
    (hlevel : s.level < (t.perform call).2.level) : Above s (t.perform call).2 := by
  cases call with
  | addClause c => exact hstep.elim
  | solve clock => exact hstep.elim
  | propagate => exact h.propagate
  | propagateLiteral l => exact h.propagateLiteral l
  | branch => exact h.branched (branch_spec h.wellFormed)
  | backtrack => exact h.backtracked (backtrack_spec t) hlevel
  | backjump target =>
    have hu : s.level < (Search.closeLevels (t.level - target) t).level := hlevel
    rw [level_closeLevels] at hu
    have ht := h.above_closeLevels (n := t.level - target) (by omega)
    exact ht.of_eq rfl rfl rfl

/-! ## Every history -/

/-- Steps above the levels of a state, taken after a decision there, keep what is below. -/
theorem Reaches.above (hb : s.branch = (some l, u)) (hs : s.WellFormed)
    (hr : Reaches (fun t call => call.IsStep ∧ s.level < (t.perform call).2.level) u steps t) :
    Above s t := by
  induction hr with
  | refl =>
    have hspec := branch_spec hs
    rw [hb] at hspec
    cases hspec with
    | @opened _ source counters ho h0 =>
      have hdrawn : Restored s { s with source, counters } := (Restored.refl hs).of_eq rfl rfl rfl
      exact hdrawn.openLevel ho h0 false
  | call _ hok ih => exact ih.perform hok.1 hok.2

/-- Whatever calls led to a state, and whatever steps were taken above its levels since a decision
there, going back gives back its trail, the values of its atoms and its levels, and the clauses
stored are the same but for the order of their literals. -/
theorem backjump_restores_of_reaches (config : Config) (source : Random.Source) (n : Nat)
    (h : Reaches (fun _ _ => True) (withSource config source n) calls s)
    (hb : s.branch = (some l, u))
    (hr : Reaches (fun t call => call.IsStep ∧ s.level < (t.perform call).2.level) u steps t) :
    (t.backjump s.level).assignment.trail = s.assignment.trail ∧
      (t.backjump s.level).assignment.values = s.assignment.values ∧
      (t.backjump s.level).levels = s.levels ∧
      Rearranged s.store.clauses (t.backjump s.level).store.clauses := by
  have hs := h.wellFormed (wellFormed_withSource config source n)
  have hrestored := (hr.above hb hs).restored_backjump
  exact ⟨hrestored.trail_eq, hrestored.values_eq hs, hrestored.levels, hrestored.clauses⟩

/-- The level that the decision opened is turned round, another is opened on top of it and turned
round as well, and a literal that is false is propagated. Going back to the level below leaves the
one decision made before. -/
theorem backjump_restores_after_backtracking :
    let new := withSource .default ⟨fun _ => 0, 0⟩ 3
    let calls : List Call := [.addClause [⟨2, true⟩, ⟨3, true⟩], .branch]
    let steps : List Call := [.propagate, .backtrack, .branch, .propagateLiteral ⟨2, false⟩,
      .backtrack]
    let s := calls.foldl (fun s call => (s.perform call).2) new
    let u := s.branch.2
    let t := steps.foldl (fun s call => (s.perform call).2) u
    Reaches (fun _ _ => True) new calls s ∧ s.branch = (some ⟨2, false⟩, u) ∧
      Reaches (fun t call => call.IsStep ∧ s.level < (t.perform call).2.level) u steps t ∧
      t.assignment.trail = #[⟨1, false⟩, ⟨2, true⟩, ⟨3, false⟩] ∧
      t.levels = [⟨2, ⟨3, false⟩, true⟩, ⟨1, ⟨2, true⟩, true⟩, ⟨0, ⟨1, false⟩, false⟩] ∧
      (t.backjump s.level).assignment.trail = #[⟨1, false⟩] ∧
      (t.backjump s.level).assignment.values = #[none, some false, none, none] ∧
      (t.backjump s.level).levels = [⟨0, ⟨1, false⟩, false⟩] ∧
      Rearranged s.store.clauses (t.backjump s.level).store.clauses := by
  intro new calls steps s u t
  have h : Reaches (fun _ _ => True) new calls s := (Reaches.refl.call trivial).call trivial
  have hl : s.branch.1 = some ⟨2, false⟩ := by decide +kernel
  have hb : s.branch = (some ⟨2, false⟩, u) := by
    show s.branch = (some ⟨2, false⟩, s.branch.2)
    rw [← hl]
  have hr : Reaches (fun t call => call.IsStep ∧ s.level < (t.perform call).2.level) u steps t :=
    ((((Reaches.refl.call ⟨trivial, by decide +kernel⟩).call ⟨trivial, by decide +kernel⟩).call
      ⟨trivial, by decide +kernel⟩).call ⟨trivial, by decide +kernel⟩).call
        ⟨trivial, by decide +kernel⟩
  obtain ⟨htrail, hvalues, hlevels, hclauses⟩ :=
    backjump_restores_of_reaches .default ⟨fun _ => 0, 0⟩ 3 h hb hr
  have hs : s.assignment.trail = #[⟨1, false⟩] := by decide +kernel
  have hsvalues : s.assignment.values = #[none, some false, none, none] := by decide +kernel
  have hslevels : s.levels = [⟨0, ⟨1, false⟩, false⟩] := by decide +kernel
  exact ⟨h, hb, hr, by decide +kernel, by decide +kernel, htrail.trans hs, hvalues.trans hsvalues,
    hlevels.trans hslevels, hclauses⟩

end Search

end Clausal
