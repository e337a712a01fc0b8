import Clausal.Proofs.Search.Calls

/-!
# What a solve counts

A pass without an answer decides an atom or turns a level round. The decisions made in a solve are
those of the levels that are open and have not been turned round, and those that have been turned
round. This ties the counters to the open levels, whichever levels are given up on the way. A solve
that finds no model has turned every decision round, each of them once.
-/

namespace Clausal.Search

variable {s t u : Search} {clock : Clock} {calls : List Call} {made turned : List Literal}

/-- The decisions of the levels that have not been turned round, the latest first. -/
def unturned (levels : List Level) : List Literal :=
  (levels.filter fun level => !level.flipped).map Level.decision

@[simp] theorem unturned_cons (level : Level) (levels : List Level) :
    unturned (level :: levels)
      = if level.flipped then unturned levels else level.decision :: unturned levels := by
  cases hf : level.flipped <;> simp [unturned, hf]

theorem unturned_append (above below : List Level) :
    unturned (above ++ below) = unturned above ++ unturned below := by
  simp [unturned]

theorem unturned_eq_nil {levels : List Level} (h : ∀ level ∈ levels, level.flipped = true) :
    unturned levels = [] := by
  simpa [unturned] using h

theorem length_unturned (levels : List Level) :
    (unturned levels).length = levels.countP fun level => !level.flipped := by
  rw [unturned, List.length_map, List.countP_eq_length_filter]

/-! ## One pass -/

/-- What a pass without an answer does to the levels and the counters, with the decision that it
makes and the one that it turns round. -/
inductive Move (s t : Search) : (made turned : List Literal) → Prop
  | decides {start : Nat} {l : Literal} (ht : t.levels = ⟨start, l, false⟩ :: s.levels)
      (hc : t.counters = ⟨s.counters.conflicts, s.counters.decisions + 1,
        s.counters.iterations + 1⟩) : Move s t [l] []
  | turns {above below : List Level} {level : Level} {start : Nat}
      (hs : s.levels = above ++ level :: below) (habove : ∀ a ∈ above, a.flipped = true)
      (hlevel : level.flipped = false) (ht : t.levels = ⟨start, -level.decision, true⟩ :: below)
      (hc : t.counters = ⟨s.counters.conflicts + 1, s.counters.decisions,
        s.counters.iterations + 1⟩) : Move s t [] [level.decision]

theorem levels_branch_some {l : Literal} (h : s.branch = (some l, t)) :
    t.levels = ⟨s.assignment.trail.size, l, false⟩ :: s.levels ∧
      t.counters = { s.counters with decisions := s.counters.decisions + 1 } := by
  unfold branch at h
  split at h
  · cases h
  · obtain ⟨hl, rfl⟩ := Prod.mk.inj h
    cases hl
    exact ⟨rfl, rfl⟩

theorem levels_branch_none (h : s.branch = (none, t)) :
    t.levels = s.levels ∧ t.counters = s.counters := by
  unfold branch at h
  split at h
  · obtain ⟨-, rfl⟩ := Prod.mk.inj h
    exact ⟨rfl, rfl⟩
  · cases h

/-- Propagation changes neither the levels nor, but for the pass itself, the counters. -/
theorem levels_counters_propagate {conflict? : Option Nat}
    (h : s.countPass.propagate = (conflict?, t)) :
    t.levels = s.levels ∧
      t.counters = { s.counters with iterations := s.counters.iterations + 1 } := by
  have hlevels := levels_propagate s.countPass
  have hcounters := counters_propagate s.countPass
  rw [h] at hlevels hcounters
  exact ⟨hlevels, hcounters⟩

theorem Pass.move (hp : Pass clock s none t) : ∃ made turned, Move s t made turned := by
  cases hp with
  | @turned _ s' _ ht hp hb =>
    obtain ⟨hlevels, hcounters⟩ := levels_counters_propagate hp
    have hspec := backtrack_spec s'.countConflict
    have hcount := hspec.counters_eq
    rw [hb] at hspec hcount
    cases hspec with
    | @turned above below level hl habove hlevel =>
      refine ⟨_, _, .turns (hlevels.symm.trans hl) habove hlevel rfl ?_⟩
      rw [hcount]
      simp only [Search.countConflict, hcounters]
  | @decided s' l _ ht hp hb =>
    obtain ⟨hlevels, hcounters⟩ := levels_counters_propagate hp
    obtain ⟨hopen, hcount⟩ := levels_branch_some hb
    rw [hlevels] at hopen
    rw [hcounters] at hcount
    exact ⟨_, _, .decides hopen hcount⟩

/-- What a pass with an answer leaves of the levels, and what it counts. -/
inductive Close (s t : Search) : Report → Prop
  | exhausts (hs : unturned s.levels = [])
      (hc : t.counters = ⟨s.counters.conflicts + 1, s.counters.decisions,
        s.counters.iterations + 1⟩) : Close s t .unsatisfiable
  | stops {report : Report} (hreport : report ≠ .unsatisfiable) (ht : t.levels = s.levels)
      (hc : t.counters = ⟨s.counters.conflicts, s.counters.decisions,
        s.counters.iterations + 1⟩) : Close s t report

theorem Pass.close {report : Report} (hp : Pass clock s (some report) t) : Close s t report := by
  cases hp with
  | late ht => exact .stops (by simp) rfl rfl
  | @exhausted _ s' u ht hp hb =>
    obtain ⟨hlevels, hcounters⟩ := levels_counters_propagate hp
    have hspec := backtrack_spec s'.countConflict
    have hcount := hspec.counters_eq
    rw [hb] at hspec hcount
    cases hspec with
    | exhausted hall =>
      refine .exhausts (unturned_eq_nil ?_) ?_
      · rw [← hlevels]
        exact hall
      · show Search.counters _ = _
        rw [hcount]
        simp only [Search.countConflict, hcounters]
  | complete ht hp hb =>
    obtain ⟨hlevels, hcounters⟩ := levels_counters_propagate hp
    obtain ⟨hopen, hcount⟩ := levels_branch_none hb
    exact .stops (by simp) (hopen.trans hlevels) (hcount.trans hcounters)

/-! ## All passes -/

/-- The passes without an answer that lead from one state to another, with the decisions made on the
way and those turned round, the latest first. -/
inductive Journey (clock : Clock) (s : Search) : List Literal → List Literal → Search → Prop
  | start : Journey clock s [] [] s
  | next {made made' turned turned' : List Literal} {t u : Search}
      (h : Journey clock s made turned t) (hp : Pass clock t none u)
      (hm : Move t u made' turned') : Journey clock s (made' ++ made) (turned' ++ turned) u

theorem Passes.journey (h : Passes clock s t) : ∃ made turned, Journey clock s made turned t := by
  induction h with
  | refl => exact ⟨_, _, .start⟩
  | next _ hp ih =>
    obtain ⟨made, turned, hjourney⟩ := ih
    obtain ⟨made', turned', hmove⟩ := hp.move
    exact ⟨_, _, hjourney.next hp hmove⟩

/-- Conflicts count the decisions turned round, and passes both these and the decisions made. Each
decision made is either that of a level not turned round yet, or has been turned round. -/
structure Tally (s t : Search) (made turned : List Literal) : Prop where
  conflicts : t.counters.conflicts = s.counters.conflicts + turned.length
  decisions : t.counters.decisions = s.counters.decisions + made.length
  iterations : t.counters.iterations = s.counters.iterations + (made.length + turned.length)
  perm : (unturned t.levels ++ turned).Perm made

theorem Tally.move {made' turned' : List Literal} (h : Tally s t made turned)
    (hm : Move t u made' turned') : Tally s u (made' ++ made) (turned' ++ turned) := by
  have hconflicts := h.conflicts
  have hdecisions := h.decisions
  have hiterations := h.iterations
  have hperm := h.perm
  cases hm with
  | decides ht hc =>
    refine ⟨?_, ?_, ?_, ?_⟩
    · rw [hc, hconflicts, List.nil_append]
    · rw [hc, hdecisions, List.singleton_append, List.length_cons, Nat.add_assoc]
    · simp only [hc, hiterations, List.length_append, List.length_singleton, List.length_nil]
      omega
    · simpa [ht] using hperm
  | @turns above below level start hs habove hlevel ht hc =>
    refine ⟨?_, ?_, ?_, ?_⟩
    · rw [hc, hconflicts, List.singleton_append, List.length_cons, Nat.add_assoc]
    · rw [hc, hdecisions, List.nil_append]
    · simp only [hc, hiterations, List.length_append, List.length_singleton, List.length_nil]
      omega
    -- the decision passes from the levels not turned round to those that have been
    · rw [hs, unturned_append, unturned_eq_nil habove, List.nil_append, unturned_cons,
        hlevel] at hperm
      rw [ht, unturned_cons]
      exact List.perm_middle.trans hperm

theorem Journey.tally (h : Journey clock s made turned t) (hs : s.levels = []) :
    Tally s t made turned := by
  induction h with
  | start =>
    refine ⟨rfl, rfl, rfl, ?_⟩
    rw [hs]
    exact List.Perm.nil
  | next _ _ hm ih => exact ih.move hm

/-! ## Every history -/

/-- A solve of clauses that are not known to contradict each other goes on a journey from a state
with no level open, and a last pass answers. -/
theorem Represents.solve_journey {cs : List Clause} (h : Represents cs s)
    (hi : s.inconsistent = false) (clock : Clock) :
    ∃ s₀ made turned t, s.restart = (none, s₀) ∧ s₀.counters = s.counters ∧
      Journey clock s₀ made turned t ∧ Tally s₀ t made turned ∧
      Pass clock t (some (s.solve clock).1) (s.solve clock).2 := by
  have hrestart : s.restart = (none, { s.backjump 0 with head := 0 }) := by
    unfold restart
    rw [hi]
    rfl
  obtain ⟨t, hpasses, hanswer⟩ := (Searching.restart h hi).run clock
  rw [← solve_of_consistent hi] at hanswer
  obtain ⟨made, turned, hjourney⟩ := hpasses.journey
  exact ⟨_, made, turned, t, hrestart, counters_closeLevels _ s, hjourney,
    hjourney.tally (levels_backjump_zero s), hanswer⟩

/-- What a solve counts, whatever calls were made before, for every configuration, random words and
clock. -/
theorem counters_solve_of_reaches (config : Config) (source : Random.Source) (n : Nat)
    (h : Reaches (fun t call => call.IsSound t) (withSource config source n) calls s)
    (clock : Clock) :
    ∃ c d i, (s.solve clock).2.counters
        = ⟨s.counters.conflicts + c, s.counters.decisions + d, s.counters.iterations + i⟩ ∧
      (s.inconsistent = true →
        (s.solve clock).1 = .unsatisfiable ∧ c = 0 ∧ d = 0 ∧ i = 0) ∧
      (s.inconsistent = false → (s.solve clock).1 = .unsatisfiable →
        c = d + 1 ∧ i = c + d ∧
          ∃ s₀ made turned t, s.restart = (none, s₀) ∧ Journey clock s₀ made turned t ∧
            Pass clock t (some .unsatisfiable) (s.solve clock).2 ∧
            made.length = d ∧ turned.Perm made) ∧
      (s.inconsistent = false → (s.solve clock).1 ≠ .unsatisfiable →
        c ≤ d ∧ i = c + d + 1 ∧
          (s.solve clock).2.levels.countP (fun level => !level.flipped) = d - c) := by
  cases hi : s.inconsistent with
  | true =>
    rw [solve_of_inconsistent hi]
    exact ⟨0, 0, 0, rfl, fun _ => ⟨rfl, rfl, rfl, rfl⟩, nofun, nofun⟩
  | false =>
    have hrep := h.represents (represents_withSource config source n)
    obtain ⟨s₀, made, turned, t, hrestart, hcounters, hjourney, htally, hpass⟩ :=
      hrep.solve_journey hi clock
    generalize s.solve clock = r at hpass ⊢
    obtain ⟨report, u⟩ := r
    obtain ⟨hconflicts, hdecisions, hiterations, hperm⟩ := htally
    have hlength := hperm.length_eq
    rw [List.length_append] at hlength
    rw [hcounters] at hconflicts hdecisions hiterations
    cases hpass.close with
    | exhausts ht hc =>
      rw [ht, List.nil_append] at hperm
      rw [ht, List.length_nil, Nat.zero_add] at hlength
      refine ⟨turned.length + 1, made.length, made.length + turned.length + 1, ?_, nofun, ?_,
        fun _ hne => absurd rfl hne⟩
      · rw [hc, hconflicts, hdecisions, hiterations]
        simp only [Nat.add_assoc]
      · intro _ _
        exact ⟨by omega, by omega, s₀, made, turned, t, hrestart, hjourney, hpass, rfl, hperm⟩
    | stops hreport hl hc =>
      refine ⟨turned.length, made.length, made.length + turned.length + 1, ?_, nofun,
        fun _ heq => absurd heq hreport, ?_⟩
      · rw [hc, hconflicts, hdecisions, hiterations]
        simp only [Nat.add_assoc]
      · intro _ _
        refine ⟨by omega, by omega, ?_⟩
        rw [hl, ← length_unturned]
        omega

/-- The four clauses of two literals over two atoms: the first atom is decided, both of its sides
are conflicts, and the decision was turned round once. -/
theorem counters_solve_full_square :
    let new := withSource .default ⟨fun _ => 0, 0⟩ 2
    let calls : List Call := [.addClause [⟨1, true⟩, ⟨2, true⟩], .addClause [⟨1, true⟩, ⟨2, false⟩],
      .addClause [⟨1, false⟩, ⟨2, true⟩], .addClause [⟨1, false⟩, ⟨2, false⟩]]
    let s := calls.foldl (fun s call => (s.perform call).2) new
    let clock : Clock := fun _ => .zero
    Reaches (fun t call => call.IsSound t) new calls s ∧ s.inconsistent = false ∧
      (s.solve clock).1 = .unsatisfiable ∧ (s.solve clock).2.counters = ⟨2, 1, 3⟩ ∧
      ∃ s₀ made turned t, s.restart = (none, s₀) ∧ Journey clock s₀ made turned t ∧
        made.length = 1 ∧ turned.Perm made := by
  intro new calls s clock
  have hr : Reaches (fun t call => call.IsSound t) new calls s :=
    (((Reaches.refl.call trivial).call trivial).call trivial).call trivial
  have hi : s.inconsistent = false := by decide +kernel
  have hreport : (s.solve clock).1 = .unsatisfiable := by decide +kernel
  have hcounters : (s.solve clock).2.counters = ⟨2, 1, 3⟩ := by decide +kernel
  have hstart : s.counters.decisions = 0 := by decide +kernel
  obtain ⟨c, d, i, hc, -, hunsat, -⟩ :=
    counters_solve_of_reaches .default ⟨fun _ => 0, 0⟩ 2 hr clock
  obtain ⟨-, -, s₀, made, turned, t, hrestart, hjourney, -, hlength, hperm⟩ := hunsat hi hreport
  have hd := congrArg Counters.decisions (hcounters.symm.trans hc)
  simp only [hstart] at hd
  exact ⟨hr, hi, hreport, hcounters, s₀, made, turned, t, hrestart, hjourney, by omega, hperm⟩

end Clausal.Search
