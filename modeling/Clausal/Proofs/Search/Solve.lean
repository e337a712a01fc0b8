import Clausal.Proofs.Search.Covering
import Clausal.Search.Solve

/-!
# Solving

A solve goes through passes, and each pass does one of five things. A pass without an answer keeps
what holds at its start, and a pass with an answer is right about the clauses. Passes always come to
an answer, since there is no more than a level for each atom.
-/

namespace Clausal.Search

variable {s t u : Search} {cs : List Clause} {clock : Clock} {v : Nat → Bool}

/-! ## What a pass does -/

/-- What a pass can do, with its answer and the state it ends in. -/
inductive Pass (clock : Clock) (s : Search) : Option Report → Search → Prop
  /-- The time is up. -/
  | late (ht : s.countPass.isOverdue clock = true) : Pass clock s (some .timeUp) s.countPass
  /-- A conflict turns a level round. -/
  | turned {key : Nat} {t u : Search} (ht : s.countPass.isOverdue clock = false)
      (hp : s.countPass.propagate = (some key, t)) (hb : t.countConflict.backtrack = (true, u)) :
      Pass clock s none u
  /-- A conflict finds no level to turn round. -/
  | exhausted {key : Nat} {t u : Search} (ht : s.countPass.isOverdue clock = false)
      (hp : s.countPass.propagate = (some key, t)) (hb : t.countConflict.backtrack = (false, u)) :
      Pass clock s (some .unsatisfiable) { u with inconsistent := true }
  /-- An atom is decided. -/
  | decided {t : Search} {l : Literal} {u : Search} (ht : s.countPass.isOverdue clock = false)
      (hp : s.countPass.propagate = (none, t)) (hb : t.branch = (some l, u)) : Pass clock s none u
  /-- Every atom has a value. -/
  | complete {t u : Search} (ht : s.countPass.isOverdue clock = false)
      (hp : s.countPass.propagate = (none, t)) (hb : t.branch = (none, u)) :
      Pass clock s (some (.satisfiable u.assignment.literals)) u

theorem pass_spec (clock : Clock) (s : Search) :
    Pass clock s (s.pass clock).1 (s.pass clock).2 := by
  unfold pass
  simp only
  cases ht : s.countPass.isOverdue clock with
  | true => exact .late ht
  | false =>
    simp only [Bool.false_eq_true, ↓reduceIte]
    rcases hp : s.countPass.propagate with ⟨_ | key, t⟩
    · rcases hb : t.branch with ⟨_ | l, u⟩
      · simp only [hb]
        exact .complete ht hp hb
      · simp only [hb]
        exact .decided ht hp hb
    · rcases hb : t.countConflict.backtrack with ⟨_ | _, u⟩
      · simp only [hb]
        exact .exhausted ht hp hb
      · simp only [hb]
        exact .turned ht hp hb

theorem Pass.pass_eq {r : Option Report} (h : Pass clock s r t) : s.pass clock = (r, t) := by
  cases h with
  | late ht => simp [pass, ht]
  | turned ht hp hb | exhausted ht hp hb | decided ht hp hb | complete ht hp hb =>
    simp [pass, ht, hp, hb]

/-! ## The configuration and the count of passes -/

theorem Pass.config_eq {r : Option Report} (h : Pass clock s r t) : t.config = s.config := by
  have hpropagate := (keeps_propagate s.countPass).config
  cases h with
  | late ht => rfl
  | @turned _ t _ ht hp hb | @exhausted _ t _ ht hp hb =>
    have hbacktrack := (keeps_backtrack t.countConflict).config
    rw [hp] at hpropagate
    rw [hb] at hbacktrack
    exact hbacktrack.trans hpropagate
  | @decided t _ _ ht hp hb | @complete t _ ht hp hb =>
    have hbranch := (keeps_branch t).config
    rw [hp] at hpropagate
    rw [hb] at hbranch
    exact hbranch.trans hpropagate

/-- A pass counts itself, and nothing in it does so again. -/
theorem Pass.iterations_eq {r : Option Report} (h : Pass clock s r t) :
    t.counters.iterations = s.counters.iterations + 1 := by
  have hpropagate := counters_propagate s.countPass
  cases h with
  | late ht => rfl
  | @turned _ t _ ht hp hb | @exhausted _ t _ ht hp hb =>
    have hbacktrack := (backtrack_spec t.countConflict).counters_eq
    rw [hp] at hpropagate
    rw [hb] at hbacktrack
    show Counters.iterations _ = _
    rw [hbacktrack]
    exact congrArg Counters.iterations hpropagate
  | @decided t _ _ ht hp hb | @complete t _ ht hp hb =>
    have hbranch := iterations_branch t
    rw [hp] at hpropagate
    rw [hb] at hbranch
    exact hbranch.trans (congrArg Counters.iterations hpropagate)

/-! ## Answers -/

/-- A report is right about clauses, for a search over the atoms up to `n`. -/
inductive IsRight (cs : List Clause) (config : Config) (n : Nat) : Report → Prop
  | satisfiable {ls : List Literal} (hatoms : ls.map Literal.atom = List.range' 1 n)
      (hmodel : Clause.SatisfiedAll (reading ls) cs) : IsRight cs config n (.satisfiable ls)
  | unsatisfiable (hno : ∀ v, ¬ Clause.SatisfiedAll v cs) : IsRight cs config n .unsatisfiable
  | timeUp (hlimit : config.timeLimit.value ≠ .zero) : IsRight cs config n .timeUp

theorem limited_of_isOverdue (h : s.isOverdue clock = true) : s.config.timeLimit.value ≠ .zero := by
  intro hz
  simp [isOverdue, Config.limit?, hz] at h

/-- Clauses that have no model may be marked so. -/
theorem Represents.markInconsistent (h : Represents cs s)
    (hno : ∀ v, ¬ Clause.SatisfiedAll v cs) : Represents cs { s with inconsistent := true } where
  wellFormed := h.wellFormed.of_eq rfl rfl rfl
  justified := h.justified
  sound v hv := absurd hv (hno v)
  complete v hi := by cases hi

namespace Searching

theorem countPass (h : Searching cs s) : Searching cs s.countPass := h.of_eq rfl rfl rfl rfl rfl

/-- At a conflict the valuations of the clauses depart from the levels. -/
theorem departs_of_propagate {key : Nat} (h : Searching cs s) (hp : s.propagate = (some key, t)) :
    Searching cs t.countConflict ∧
      ∀ v, Clause.SatisfiedAll v cs → Departs v t.countConflict.levels := by
  have ht := h.propagate
  obtain ⟨-, -, hend⟩ := h.settled.propagate h.bounded
  rw [hp] at ht hend
  obtain ⟨c, hc, hf⟩ := hend
  exact ⟨ht.of_eq rfl rfl rfl rfl rfl, fun v hv => ht.departs hc hf hv⟩

theorem head_eq_of_propagate (h : Searching cs s) (hp : s.propagate = (none, t)) :
    Searching cs t ∧ t.head = t.assignment.trail.size := by
  have ht := h.propagate
  obtain ⟨-, -, hend⟩ := h.settled.propagate h.bounded
  rw [hp] at ht hend
  exact ⟨ht, hend⟩

/-- A pass without an answer keeps what holds at its start. -/
theorem next (h : Searching cs s) (hp : Pass clock s none t) : Searching cs t := by
  cases hp with
  | @turned _ t _ ht hp hb =>
    obtain ⟨hs, hd⟩ := h.countPass.departs_of_propagate hp
    have hspec := backtrack_spec t.countConflict
    rw [hb] at hspec
    exact hs.backtracked hd hspec
  | decided ht hp hb =>
    obtain ⟨hs, hh⟩ := h.countPass.head_eq_of_propagate hp
    have hspec := branch_spec hs.represents.wellFormed
    rw [hb] at hspec
    exact hs.branched hh hspec

/-- A pass with an answer is right, and the state goes on to stand for the clauses. -/
theorem answer {report : Report} (h : Searching cs s) (hp : Pass clock s (some report) t) :
    Represents cs t ∧ IsRight cs s.config t.atomCount report := by
  cases hp with
  | late ht => exact ⟨h.countPass.represents, .timeUp (limited_of_isOverdue (s := s.countPass) ht)⟩
  | @exhausted _ t _ ht hp hb =>
    obtain ⟨hs, hd⟩ := h.countPass.departs_of_propagate hp
    have hspec := backtrack_spec t.countConflict
    rw [hb] at hspec
    have hno := unsatisfiable hd hspec
    exact ⟨(hs.represents.backtracked hspec).markInconsistent hno, .unsatisfiable hno⟩
  | complete ht hp hb =>
    obtain ⟨hs, hh⟩ := h.countPass.head_eq_of_propagate hp
    have hspec := branch_spec hs.represents.wellFormed
    rw [hb] at hspec
    cases hspec with
    | complete hopen =>
      have hmodel := hs.satisfiedAll_valuation hh hopen
      rw [← reading_literals hs.represents.wellFormed.assignment] at hmodel
      exact ⟨hs.represents.of_eq rfl rfl rfl rfl, .satisfiable (map_atom_literals _) hmodel⟩

end Searching

/-! ## Depth -/

/-- Levels that start at different places below `n` are at most `n`. -/
theorem length_le_of_sorted {levels : List Level} {n : Nat}
    (hs : levels.Pairwise fun level below => below.start < level.start)
    (hn : ∀ level ∈ levels, level.start < n) : levels.length ≤ n := by
  induction levels generalizing n with
  | nil => exact Nat.zero_le n
  | cons level below ih =>
    obtain ⟨hlevel, hbelow⟩ := List.pairwise_cons.mp hs
    have hlen := ih hbelow hlevel
    have hlt := hn level List.mem_cons_self
    rw [List.length_cons]
    omega

theorem WellFormed.level_le (h : s.WellFormed) : s.level ≤ s.atomCount := by
  refine Nat.le_trans (length_le_of_sorted h.sorted fun level hlevel => ?_)
    h.assignment.size_trail_le
  exact (Array.getElem?_eq_some_iff.mp (h.decisions level hlevel)).1

/-! ## All passes -/

/-- The passes without an answer that lead from one state to another. -/
inductive Passes (clock : Clock) (s : Search) : Search → Prop
  | refl : Passes clock s s
  | next {t u : Search} (h : Passes clock s t) (hp : Pass clock t none u) : Passes clock s u

theorem Passes.first (hp : Pass clock s none t) (h : Passes clock t u) : Passes clock s u := by
  induction h with
  | refl => exact .next .refl hp
  | next _ hp' ih => exact .next ih hp'

theorem Passes.searching (h : Passes clock s t) (hs : Searching cs s) : Searching cs t := by
  induction h with
  | refl => exact hs
  | next _ hp ih => exact ih.next hp

theorem Passes.config_eq (h : Passes clock s t) : t.config = s.config := by
  induction h with
  | refl => rfl
  | next _ hp ih => exact hp.config_eq.trans ih

/-- What propagation, turning a level round at a conflict and deciding keep, passes do. -/
theorem Passes.induction {P : Search → Prop} (h : Passes clock s t) (hs : Searching cs s)
    (hstart : P s)
    (propagated : ∀ u, Searching cs u → P u → P u.countPass.propagate.2)
    (turned : ∀ u w, Searching cs u.countConflict →
      (∀ v, Clause.SatisfiedAll v cs → Departs v u.levels) → P u →
      Backtracked u.countConflict true w → P w)
    (decided : ∀ u l w, Searching cs u → u.config = s.config → P u → u.branch = (some l, w) → P w) :
    P t := by
  induction h with
  | refl => exact hstart
  | @next t u hpasses hp ih =>
    have ht := hpasses.searching hs
    have hpropagate := propagated t ht ih
    have hconfig := (keeps_propagate t.countPass).config
    cases hp with
    | @turned _ t' _ _ hp hb =>
      obtain ⟨hs', hd⟩ := ht.countPass.departs_of_propagate hp
      have hspec := backtrack_spec t'.countConflict
      rw [hb] at hspec
      rw [hp] at hpropagate
      exact turned t' u hs' hd hpropagate hspec
    | @decided t' l _ _ hp hb =>
      obtain ⟨hs', -⟩ := ht.countPass.head_eq_of_propagate hp
      rw [hp] at hpropagate hconfig
      exact decided t' l u hs' (hconfig.trans hpasses.config_eq) hpropagate hb

theorem Passes.atomCount_eq (h : Passes clock s t) : t.atomCount = s.atomCount := by
  induction h with
  | refl => rfl
  | @next t u _ hp ih =>
    rw [← ih, ← atomCount_pass clock t, hp.pass_eq]

/-- A solve goes through passes up to one that answers. -/
theorem Searching.run (h : Searching cs s) (clock : Clock) :
    ∃ t, Passes clock s t ∧
      Pass clock t (some (Search.run clock s).1) (Search.run clock s).2 := by
  fun_induction Search.run clock s with
  | case1 s hdepth report t ht =>
    have hpass := pass_spec clock s
    rw [ht] at hpass
    exact ⟨s, .refl, hpass⟩
  | case2 s hdepth t ht ih =>
    have hpass := pass_spec clock s
    rw [ht] at hpass
    obtain ⟨u, hu, hanswer⟩ := ih (h.next hpass)
    exact ⟨u, hu.first hpass, hanswer⟩
  -- a state with more levels than atoms is not reached
  | case3 s hdepth => exact absurd h.represents.wellFormed.level_le hdepth

/-- A solve of clauses that are known to have no model does nothing. -/
theorem solve_of_inconsistent (hi : s.inconsistent = true) :
    s.solve clock = (.unsatisfiable, s) := by
  unfold solve restart
  rw [hi]
  rfl

/-- A solve that goes through passes begins with no level open. -/
theorem eq_of_restart_eq_none (h : s.restart = (none, t)) :
    s.inconsistent = false ∧ t = { s.backjump 0 with head := 0 } := by
  unfold restart at h
  cases hi : s.inconsistent with
  | true =>
    rw [hi] at h
    cases h
  | false =>
    rw [hi] at h
    cases h
    exact ⟨rfl, rfl⟩

theorem solve_of_consistent (hi : s.inconsistent = false) :
    s.solve clock = run clock { s.backjump 0 with head := 0 } := by
  unfold solve restart
  rw [hi]
  rfl

/-- A solve is right about the clauses, and the state goes on to stand for them. -/
theorem Represents.solve (h : Represents cs s) (clock : Clock) :
    Represents cs (s.solve clock).2 ∧
      IsRight cs s.config (s.solve clock).2.atomCount (s.solve clock).1 := by
  cases hi : s.inconsistent with
  | true =>
    rw [solve_of_inconsistent hi]
    refine ⟨h, .unsatisfiable fun v hv => ?_⟩
    rw [(h.sound v hv).1] at hi
    cases hi
  | false =>
    rw [solve_of_consistent hi]
    have hs := Searching.restart h hi
    obtain ⟨t, hpasses, hanswer⟩ := hs.run clock
    have hconfig : t.config = s.config := hpasses.config_eq.trans (keeps_backjump 0 s).config
    rw [← hconfig]
    exact (hpasses.searching hs).answer hanswer

/-- A solve that reports a model ends with a pass in which no atom is left to decide. -/
theorem Represents.exists_complete (h : Represents cs s) {ls : List Literal}
    (hsolve : (s.solve clock).1 = .satisfiable ls) :
    s.inconsistent = false ∧ ∃ t u, Passes clock { s.backjump 0 with head := 0 } t ∧
      t.countPass.propagate = (none, u) ∧ u.branch = (none, (s.solve clock).2) ∧
      ls = (s.solve clock).2.assignment.literals := by
  cases hi : s.inconsistent with
  | true =>
    rw [solve_of_inconsistent hi] at hsolve
    cases hsolve
  | false =>
    rw [solve_of_consistent hi] at hsolve ⊢
    obtain ⟨t, hpasses, hanswer⟩ := (Searching.restart h hi).run clock
    generalize Search.run clock _ = r at hsolve hanswer ⊢
    obtain ⟨report, u⟩ := r
    change report = _ at hsolve
    change Pass clock t (some report) u at hanswer
    subst hsolve
    cases hanswer with
    | @complete t' _ ht hp hb => exact ⟨rfl, t, t', hpasses, hp, hb, rfl⟩

theorem run_of_some {report : Report} (hdepth : s.level ≤ s.atomCount)
    (h : s.pass clock = (some report, t)) : run clock s = (report, t) := by
  rw [run, dif_pos hdepth]
  split
  · rename_i ht
    cases h.symm.trans ht
    rfl
  · rename_i ht
    cases h.symm.trans ht

theorem run_of_none (hdepth : s.level ≤ s.atomCount) (h : s.pass clock = (none, t)) :
    run clock s = run clock t := by
  rw [run, dif_pos hdepth]
  split
  · rename_i ht
    cases h.symm.trans ht
  · rename_i ht
    cases h.symm.trans ht
    rfl

/-! ## What a solve keeps -/

/-- A property that every step of a solve keeps. -/
structure StepInvariant (P : Search → Prop) : Prop where
  restart : ∀ s, P s → P { s.backjump 0 with head := 0 }
  countPass : ∀ s, P s → P s.countPass
  countConflict : ∀ s, P s → P s.countConflict
  propagate : ∀ s, P s → P s.propagate.2
  backtrack : ∀ s, P s → P s.backtrack.2
  branch : ∀ s, P s → P s.branch.2
  mark : ∀ s, P s → P { s with inconsistent := true }

namespace StepInvariant

variable {P : Search → Prop}

theorem pass (hP : StepInvariant P) (clock : Clock) (h : P s) : P (s.pass clock).2 := by
  have hpropagate := hP.propagate _ (hP.countPass s h)
  have hpass := pass_spec clock s
  generalize s.pass clock = r at hpass ⊢
  obtain ⟨report, u⟩ := r
  change Pass clock s report u at hpass
  cases hpass with
  | late ht => exact hP.countPass s h
  | @turned _ t _ ht hp hb =>
    rw [hp] at hpropagate
    have hback := hP.backtrack _ (hP.countConflict t hpropagate)
    rwa [hb] at hback
  | @exhausted _ t _ ht hp hb =>
    rw [hp] at hpropagate
    have hback := hP.backtrack _ (hP.countConflict t hpropagate)
    rw [hb] at hback
    exact hP.mark _ hback
  | @decided t _ _ ht hp hb | @complete t _ ht hp hb =>
    rw [hp] at hpropagate
    have hbranch := hP.branch t hpropagate
    rwa [hb] at hbranch

theorem run (hP : StepInvariant P) (clock : Clock) (h : P s) : P (Search.run clock s).2 := by
  have hpass : ∀ u, P u → P (u.pass clock).2 := fun u hu => hP.pass clock hu
  fun_induction Search.run clock s with
  | case1 s hdepth report t ht =>
    have hs := hpass s h
    rwa [ht] at hs
  | case2 s hdepth t ht ih =>
    have hs := hpass s h
    rw [ht] at hs
    exact ih hs
  | case3 s hdepth => exact h

theorem solve (hP : StepInvariant P) (clock : Clock) (h : P s) : P (s.solve clock).2 := by
  cases hi : s.inconsistent with
  | true => rwa [solve_of_inconsistent hi]
  | false =>
    rw [solve_of_consistent hi]
    exact hP.run clock (hP.restart s h)

end StepInvariant

theorem stepInvariant_config (config : Config) : StepInvariant fun s => s.config = config where
  restart s h := (keeps_backjump 0 s).config.trans h
  countPass _ h := h
  countConflict _ h := h
  propagate s h := (keeps_propagate s).config.trans h
  backtrack s h := (keeps_backtrack s).config.trans h
  branch s h := (keeps_branch s).config.trans h
  mark _ h := h

theorem config_solve (clock : Clock) (s : Search) : (s.solve clock).2.config = s.config :=
  (stepInvariant_config s.config).solve clock rfl

theorem stepInvariant_atomCount (n : Nat) : StepInvariant fun s => s.atomCount = n where
  restart s h := (atomCount_backjump 0 s).trans h
  countPass _ h := h
  countConflict _ h := h
  propagate s h := (atomCount_propagate s).trans h
  backtrack s h := (atomCount_backtrackThrough s.levels s).trans h
  branch s h := (atomCount_branch s).trans h
  mark _ h := h

theorem atomCount_solve (clock : Clock) (s : Search) :
    (s.solve clock).2.atomCount = s.atomCount :=
  (stepInvariant_atomCount s.atomCount).solve clock rfl

end Clausal.Search
