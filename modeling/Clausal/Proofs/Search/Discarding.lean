import Clausal.Proofs.Search.Calls

/-!
# What a solve gives up

At a conflict a solve gives up the valuations that follow all open levels, and at no other time does
it give up any. What it has given up is thus what neither follows the levels nor departs from them:
levels that were turned round and are closed many at a time hide nothing, for their other sides were
given up before. No model is given up, wherever the solve stops.
-/

namespace Clausal.Search

variable {s₀ s t : Search} {cs : List Clause} {clock : Clock} {v : Nat → Bool}

/-- In a pass from this state propagation meets a false clause. -/
def Conflicts (s : Search) : Prop := ∃ key, s.countPass.propagate.1 = some key

/-- A valuation is given up on the way from one state to another: a pass on this way has a conflict
and goes on, and the valuation follows the levels that are open then. -/
def Discarded (clock : Clock) (s t : Search) (v : Nat → Bool) : Prop :=
  ∃ u w, Passes clock s u ∧ u.Conflicts ∧ Follows v u.levels ∧ Pass clock u none w ∧
    Passes clock w t

/-! ## Passes -/

theorem departs_iff_ahead : Departs v s.levels ↔ Ahead v s.levels ∧ ¬ Follows v s.levels := by
  constructor
  · intro hdep
    exact ⟨.inr hdep, fun hfollows => hfollows.not_departs hdep⟩
  · rintro ⟨hfollows | hdep, hno⟩
    · exact absurd hfollows hno
    · exact hdep

/-- A pass without an answer gives up the valuations that follow the levels at a conflict, and no
others. -/
theorem Pass.ahead_iff (hp : Pass clock s none t) :
    Ahead v t.levels ↔ Ahead v s.levels ∧ ¬ (s.Conflicts ∧ Follows v s.levels) := by
  have hlevels : s.countPass.propagate.2.levels = s.levels := levels_propagate s.countPass
  cases hp with
  | @turned key u _ _ hp hb =>
    have hconflicts : s.Conflicts := ⟨key, congrArg Prod.fst hp⟩
    have hspec := backtrack_spec u.countConflict
    rw [hb] at hspec
    rw [hp] at hlevels
    cases hspec with
    | @turned above below level hl habove hlevel =>
      have hs : s.levels = above ++ level :: below := hlevels.symm.trans hl
      rw [and_iff_right hconflicts, ← departs_iff_ahead, hs]
      exact ahead_turned_iff habove hlevel _
  | @decided u l _ _ hp hb =>
    have hconflicts : ¬ s.Conflicts := by
      rintro ⟨key, hkey⟩
      rw [hp] at hkey
      cases hkey
    obtain ⟨level, hopen, hlevel⟩ := levels_branch hb
    rw [hp] at hlevels
    rw [hopen, ahead_cons_iff hlevel, hlevels]
    simp only [hconflicts, false_and, not_false_eq_true, and_true]

theorem Passes.ahead (h : Passes clock s t) (hv : Ahead v t.levels) : Ahead v s.levels := by
  induction h with
  | refl => exact hv
  | next _ hp ih => exact ih (hp.ahead_iff.mp hv).1

/-- What a solve has given up is what is no longer ahead. -/
theorem Passes.discarded_iff (h : Passes clock s₀ t) (hs : s₀.levels = []) :
    Discarded clock s₀ t v ↔ ¬ Ahead v t.levels := by
  constructor
  · rintro ⟨u, w, -, hconflicts, hfollows, hp, hlater⟩ hahead
    exact (hp.ahead_iff.mp (hlater.ahead hahead)).2 ⟨hconflicts, hfollows⟩
  · intro hv
    induction h with
    -- every valuation is ahead of a solve that begins
    | refl => exact absurd (.inl (.of_levels_eq_nil hs)) hv
    | @next u t hpasses hp ih =>
      by_cases hahead : Ahead v u.levels
      · obtain ⟨hconflicts, hfollows⟩ : u.Conflicts ∧ Follows v u.levels :=
          Classical.byContradiction fun hno => hv (hp.ahead_iff.mpr ⟨hahead, hno⟩)
        exact ⟨u, t, hpasses, hconflicts, hfollows, hp, .refl⟩
      · obtain ⟨x, w, hx, hconflicts, hfollows, hpass, hlater⟩ := ih hahead
        exact ⟨x, w, hx, hconflicts, hfollows, hpass, hlater.next hp⟩

theorem Searching.ahead (h : Searching cs s) (hv : Clause.SatisfiedAll v cs) :
    (Follows v s.levels ∧ ∀ l ∈ s.assignment.trail, l.trueUnder v = true) ∨
      Departs v s.levels := by
  rcases h.covered v hv with hfollows | hdep
  · exact .inl ⟨hfollows, fun l hl => h.represents.trueUnder_of_follows hv hfollows hl⟩
  · exact .inr hdep

/-- With a conflict and every level turned round there is no model. -/
theorem Searching.not_satisfiedAll_of_conflicts (h : Searching cs s) (hc : s.Conflicts)
    (hall : ∀ level ∈ s.levels, level.flipped = true) (v : Nat → Bool) :
    ¬ Clause.SatisfiedAll v cs := by
  intro hv
  obtain ⟨key, hkey⟩ := hc
  obtain ⟨-, hdeparts⟩ := h.countPass.departs_of_propagate (Prod.ext hkey rfl)
  have hlevels : s.countPass.propagate.2.levels = s.levels := levels_propagate s.countPass
  refine not_departs ?_ (hdeparts v hv)
  show ∀ level ∈ s.countPass.propagate.2.levels, level.flipped = true
  rw [hlevels]
  exact hall

/-! ## Every history -/

/-- A solve that runs out of time ends at the start of a pass. -/
theorem Represents.exists_late (h : Represents cs s) (hs : s.restart = (none, s₀))
    (hsolve : (s.solve clock).1 = .timeUp) :
    ∃ t, Passes clock s₀ t ∧ (s.solve clock).2 = t.countPass := by
  obtain ⟨hi, rfl⟩ := eq_of_restart_eq_none hs
  obtain ⟨t, hpasses, hanswer⟩ := (Searching.restart h hi).run clock
  rw [← solve_of_consistent hi, hsolve] at hanswer
  generalize (s.solve clock).2 = u at hanswer ⊢
  cases hanswer with
  | late ht => exact ⟨t, hpasses, rfl⟩

/-- No model is skipped. In every pass of a solve, whatever calls were made before it, a valuation of
the clauses accepted so far makes the decisions of all levels true, and the whole trail with them, or
departs from the levels; so it has not been given up. A conflict with every level turned round shows
that there is no model, and a solve that runs out of time has given up none. -/
theorem no_model_discarded_of_reaches (config : Config) (source : Random.Source) (n : Nat)
    {calls : List Call}
    (h : Reaches (fun t call => call.IsSound t) (withSource config source n) calls s)
    (hs : s.restart = (none, s₀)) (clock : Clock) :
    (∀ t, Passes clock s₀ t →
      (∀ v, Clause.SatisfiedAll v (accepted (withSource config source n) calls) →
        (Follows v t.levels ∧ ∀ l ∈ t.assignment.trail, l.trueUnder v = true) ∨
          Departs v t.levels) ∧
      (t.Conflicts → (∀ level ∈ t.levels, level.flipped = true) →
        ∀ v, ¬ Clause.SatisfiedAll v (accepted (withSource config source n) calls)) ∧
      ∀ v, Discarded clock s₀ t v ↔ ¬ Ahead v t.levels) ∧
    ((s.solve clock).1 = .timeUp → ∃ t, Passes clock s₀ t ∧ (s.solve clock).2 = t.countPass ∧
      ∀ v, Discarded clock s₀ t v →
        ¬ Clause.SatisfiedAll v (accepted (withSource config source n) calls)) := by
  rw [accepted_eq_given]
  have hrep := h.represents (represents_withSource config source n)
  obtain ⟨hi, hstart⟩ := eq_of_restart_eq_none hs
  have hsearching : Searching (given calls) s₀ := hstart ▸ Searching.restart hrep hi
  have hlevels : s₀.levels = [] := hstart ▸ levels_backjump_zero s
  refine ⟨fun t ht => ?_, fun hsolve => ?_⟩
  · have htsearching := ht.searching hsearching
    exact ⟨fun v hv => htsearching.ahead hv, htsearching.not_satisfiedAll_of_conflicts,
      fun v => ht.discarded_iff hlevels⟩
  · obtain ⟨t, ht, heq⟩ := hrep.exists_late hs hsolve
    refine ⟨t, ht, heq, fun v hdiscarded hv => ?_⟩
    exact (ht.discarded_iff hlevels).mp hdiscarded ((ht.searching hsearching).covered v hv)

/-- The first of two atoms was decided to be false, which was a conflict, and has been turned round
when time is up: the valuations that make it false have been given up, and no others. -/
theorem no_model_discarded_after_conflict :
    let config := { Config.default with timeLimit := ⟨"time_limit", .zero, .greatest, .of 2 0⟩ }
    let new := withSource config ⟨fun _ => 0, 0⟩ 2
    let calls : List Call :=
      [.addClause [⟨1, true⟩, ⟨2, true⟩], .addClause [⟨1, true⟩, ⟨2, false⟩]]
    let s := calls.foldl (fun s call => (s.perform call).2) new
    let s₀ := s.restart.2
    let clock : Clock := fun number => .of number 0
    Reaches (fun t call => call.IsSound t) new calls s ∧ s.restart = (none, s₀) ∧
      (s.solve clock).1 = .timeUp ∧
      ∃ t, Passes clock s₀ t ∧ (s.solve clock).2 = t.countPass ∧
        t.levels = [⟨0, ⟨1, true⟩, true⟩] ∧ (∀ v, Discarded clock s₀ t v ↔ v 1 = false) ∧
        ∀ v, Discarded clock s₀ t v → ¬ Clause.SatisfiedAll v (accepted new calls) := by
  intro config new calls s s₀ clock
  have hr : Reaches (fun t call => call.IsSound t) new calls s :=
    (Reaches.refl.call trivial).call trivial
  have hnone : s.restart.1 = none := by decide +kernel
  have hs : s.restart = (none, s₀) := by rw [← Prod.eta s.restart, hnone]
  have hsolve : (s.solve clock).1 = .timeUp := by decide +kernel
  have hopen : (s.solve clock).2.levels = [⟨0, ⟨1, true⟩, true⟩] := by decide +kernel
  obtain ⟨hpasses, hlate⟩ := no_model_discarded_of_reaches config ⟨fun _ => 0, 0⟩ 2 hr hs clock
  obtain ⟨t, ht, heq, hno⟩ := hlate hsolve
  have hlevels : t.levels = [⟨0, ⟨1, true⟩, true⟩] := by
    rw [heq] at hopen
    exact hopen
  refine ⟨hr, hs, hsolve, t, ht, heq, hlevels, fun v => ?_, hno⟩
  obtain ⟨-, -, hdiscarded⟩ := hpasses t ht
  rw [hdiscarded v, hlevels, Ahead, follows_cons, departs_cons]
  simp [Follows, Departs, Literal.trueUnder]

end Clausal.Search
