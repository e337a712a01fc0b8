import Clausal.Proofs.Search.Calls
import Clausal.Search.Oracle

/-!
# Phase saving keeps a model

An atom with a value has it saved, and going back leaves it saved. So after a model is reported the
search has all of it saved, and a clause that the model satisfies adds nothing that it denies. The
next solve then follows the model: what is propagated is true in it, since it satisfies the clauses,
and what is decided is taken from it. No conflict is met on the way, and the model is reported again.
-/

namespace Clausal.Search

variable {s t u : Search} {cs : List Clause} {c : Clause} {l : Literal} {v : Nat → Bool} {n : Nat}
  {clock : Clock} {calls : List Call}

/-! ## Saved values -/

namespace Assignment

variable {a a₀ : Assignment}

/-- The value that is saved for the atom of an index. -/
def lastValue (a : Assignment) (index : Nat) : Option Bool := a.saved[index]?.join

theorem assign_of_not_isOpen (h : ¬ a.IsOpen l.atom) : a.assign l = a := by
  unfold assign
  split
  · rename_i hnone
    exact absurd hnone h
  · rfl

theorem lastValue_assign (h : a.IsOpen l.atom) (hsize : a.saved.size = a.values.size) (i : Nat) :
    (a.assign l).lastValue i = if i = l.atom then some l.polarity else a.lastValue i := by
  have hlt : l.atom < a.saved.size := hsize ▸ (isOpen_iff.mp h).1
  rw [assign_of_isOpen h]
  simp only [lastValue, Array.getElem?_setIfInBounds]
  by_cases hi : l.atom = i
  · subst hi
    simp [hlt]
  · simp [hi, Ne.symm hi]

theorem lastValue_grow (a : Assignment) (index i : Nat) :
    (a.grow index).lastValue i = a.lastValue i := by
  simp only [lastValue, grow, Array.getElem?_append, Array.getElem?_replicate]
  split
  · rfl
  · rename_i h
    rw [Array.getElem?_eq_none_iff.mpr (Nat.not_lt.mp h)]
    split <;> rfl

/-- The value of an atom is saved. -/
structure Remembers (a : Assignment) : Prop where
  size_saved : a.saved.size = a.values.size
  lastValue_eq : ∀ {i : Nat} {y : Bool}, a.value i = some y → a.lastValue i = some y

theorem remembers_new (atomCount : Nat) : (new atomCount).Remembers where
  size_saved := rfl
  lastValue_eq {i} _ hi := by
    rw [value_new] at hi
    cases hi

theorem Remembers.assign (h : a.Remembers) (l : Literal) : (a.assign l).Remembers := by
  by_cases ho : a.IsOpen l.atom
  · constructor
    · rw [size_values_assign, assign_of_isOpen ho, ← h.size_saved]
      simp
    · intro i y hi
      rw [value_assign ho] at hi
      rw [lastValue_assign ho h.size_saved]
      split
      · rename_i hil
        rwa [if_pos hil] at hi
      · rename_i hil
        rw [if_neg hil] at hi
        exact h.lastValue_eq hi
  · rwa [assign_of_not_isOpen ho]

theorem Remembers.unwind (h : a.Remembers) (length : Nat) : (a.unwind length).Remembers where
  size_saved := by
    rw [size_values_unwind]
    exact h.size_saved
  lastValue_eq {i} y hi := by
    rw [value_unwind] at hi
    split at hi
    · cases hi
    · exact h.lastValue_eq hi

theorem Remembers.grow (h : a.Remembers) (index : Nat) : (a.grow index).Remembers where
  size_saved := by simp [Assignment.grow, h.size_saved]
  lastValue_eq {i} y hi := by
    rw [value_grow] at hi
    rw [lastValue_grow]
    exact h.lastValue_eq hi

/-- What is saved is as it was in `a₀`, but for atoms that have values. -/
def SavesAs (a₀ a : Assignment) : Prop :=
  ∀ i, (a.value i).isSome ∨ a.lastValue i = a₀.lastValue i

theorem SavesAs.assign (h : SavesAs a₀ a) (l : Literal) : SavesAs a₀ (a.assign l) := by
  by_cases ho : a.IsOpen l.atom
  · intro i
    rw [value_assign ho]
    by_cases hi : i = l.atom
    · simp [hi]
    · rw [if_neg hi, assign_of_isOpen ho]
      simp only [lastValue, Array.getElem?_setIfInBounds_ne (Ne.symm hi)]
      exact h i
  · rwa [assign_of_not_isOpen ho]

end Assignment

/-! ## What calls keep of an assignment -/

/-- Whatever is done to an assignment keeps a property of it. -/
structure Kept (P : Assignment → Prop) : Prop where
  assign : ∀ a l, P a → P (a.assign l)
  unwind : ∀ a length, P a → P (a.unwind length)
  grow : ∀ a index, P a → P (a.grow index)

theorem kept_remembers : Kept Assignment.Remembers where
  assign _ l h := h.assign l
  unwind _ length h := h.unwind length
  grow _ index h := h.grow index

section

variable {P : Assignment → Prop}

theorem visit_induction (hassign : ∀ a l, P a → P (a.assign l)) (falsified : Literal)
    (a : Assignment) (store : Store) (kept pending : List Nat) (h : P a) :
    P (visit falsified a store kept pending).assignment := by
  fun_induction visit falsified a store kept pending with
  | case1 => exact h
  | case2 _ _ _ _ _ _ ih => exact ih h
  | case3 _ _ _ _ _ _ _ _ _ _ ih => exact ih h
  | case4 _ _ _ _ _ _ _ _ _ _ _ ih => exact ih h
  | case5 _ _ _ _ _ _ _ _ _ _ ih => exact ih (hassign _ _ h)
  | case6 => exact h

/-- Propagation only assigns. -/
theorem propagate_induction (hassign : ∀ a l, P a → P (a.assign l)) (s : Search)
    (h : P s.assignment) : P s.propagate.2.assignment := by
  have hliteral : ∀ (s : Search) (l : Literal), P s.assignment →
      P (s.propagateLiteral l).2.assignment := fun s l h => visit_induction hassign _ _ _ _ _ h
  fun_induction propagate s with
  | case1 => exact h
  | case2 s l _ key t ht =>
    have hl := hliteral s l h
    rwa [ht] at hl
  | case3 s l _ t ht ih =>
    have hl := hliteral s l h
    rw [ht] at hl
    exact ih hl

/-- A decision only assigns. -/
theorem branch_induction (hassign : ∀ a l, P a → P (a.assign l)) (s : Search)
    (h : P s.assignment) : P s.branch.2.assignment := by
  unfold branch
  split
  · exact h
  · exact hassign _ _ h

theorem addCanonical_induction (hassign : ∀ a l, P a → P (a.assign l)) (s : Search) (c : Clause)
    (h : P s.assignment) : P (s.addCanonical c).2.assignment := by
  unfold addCanonical addUnit
  split
  · exact h
  · split
    · exact h
    · exact h
    · exact hassign _ _ h
  · exact h

namespace Kept

variable (hP : Kept P)

include hP

theorem closeLevels (n : Nat) (h : P s.assignment) : P (Search.closeLevels n s).assignment :=
  closeLevels_induction (P := fun t => P t.assignment)
    (fun t level _ ht _ => hP.unwind t.assignment level.start ht) n h

theorem backtrackThrough (levels : List Level) (s : Search) (h : P s.assignment) :
    P (Search.backtrackThrough levels s).2.assignment := by
  induction levels generalizing s with
  | nil => exact h
  | cons level below ih =>
    have hunwind := hP.unwind s.assignment level.start h
    rw [Search.backtrackThrough]
    split
    · exact ih _ hunwind
    · exact hP.assign _ _ hunwind

theorem stepInvariant : StepInvariant fun s => P s.assignment where
  restart s h := hP.closeLevels (s.level - 0) h
  countPass _ h := h
  countConflict _ h := h
  propagate s h := propagate_induction hP.assign s h
  backtrack s h := hP.backtrackThrough s.levels s h
  branch s h := branch_induction hP.assign s h
  mark _ h := h

theorem addClause (c : Clause) (h : P s.assignment) : P (s.addClause c).2.assignment := by
  by_cases hz : HasZero c
  · rwa [addClause_of_hasZero hz]
  · have hback : P (s.backjump 0).assignment := hP.closeLevels (s.level - 0) h
    rw [addClause_of_not_hasZero hz]
    split
    · exact hback
    · exact addCanonical_induction hP.assign _ _ (hP.grow _ _ hback)

theorem perform (call : Call) (h : P s.assignment) : P (s.perform call).2.assignment := by
  cases call with
  | addClause c => exact hP.addClause c h
  | solve clock => exact hP.stepInvariant.solve clock h
  | propagate => exact propagate_induction hP.assign s h
  | propagateLiteral l => exact visit_induction hP.assign _ _ _ _ _ h
  | branch => exact branch_induction hP.assign s h
  | backtrack => exact hP.backtrackThrough s.levels s h
  | backjump target => exact hP.closeLevels (s.level - target) h

/-- What an assignment has at first it has after any calls. -/
theorem reaches {ok : Search → Call → Prop} (hr : Reaches ok s calls t) (h : P s.assignment) :
    P t.assignment := by
  induction hr with
  | refl => exact h
  | @call _ u call _ _ ih => exact hP.perform call ih

end Kept

end

/-- Going back leaves what is saved. -/
theorem lastValue_backjump (target : Nat) (s : Search) (i : Nat) :
    (s.backjump target).assignment.lastValue i = s.assignment.lastValue i :=
  closeLevels_induction (P := fun t => t.assignment.lastValue i = s.assignment.lastValue i)
    (fun _ _ _ ht _ => ht) (s.level - target) rfl

theorem savesAs_addClause (hz : ¬ HasZero c) :
    s.assignment.SavesAs (s.addClause c).2.assignment := by
  have hback := lastValue_backjump 0 s
  rw [addClause_of_not_hasZero hz]
  split
  · exact fun i => .inr (hback i)
  · refine addCanonical_induction (P := s.assignment.SavesAs) (fun _ l ha => ha.assign l) _ _ ?_
    intro i
    right
    show ((s.backjump 0).assignment.grow _).lastValue i = _
    rw [Assignment.lastValue_grow, hback]

/-! ## Searches that have a model saved -/

/-- An atom that has a value to fall back on is decided to have it. -/
theorem polarity_of_branch {y : Bool} (hb : s.branch = (some l, t))
    (hsaved : s.savedValue l.atom = some y) : l.polarity = y := by
  unfold branch at hb
  split at hb
  · cases hb
  · rename_i index source hchoose
    obtain ⟨hl, -⟩ := Prod.mk.inj hb
    cases hl
    have hdrawn : savedValue { s with source } index = some y := hsaved
    show (choosePolarity { s with source } index).1 = y
    rw [choosePolarity, hdrawn]

/-- The search has the values of a valuation saved for the atoms `1, …, n`, which are all. -/
structure Recalls (v : Nat → Bool) (n : Nat) (s : Search) : Prop where
  remembers : s.assignment.Remembers
  atomCount : s.atomCount = n
  lastValue_eq : ∀ i, 0 < i → i ≤ n → s.assignment.lastValue i = some (v i)

namespace Recalls

theorem of_eq (h : Recalls v n s) (ha : t.assignment = s.assignment) : Recalls v n t := by
  constructor
  · rw [ha]
    exact h.remembers
  · rw [← h.atomCount, Search.atomCount, Search.atomCount, ha]
  · rw [ha]
    exact h.lastValue_eq

/-- Values saved since are those of a model that follows the levels, so they are what was saved. -/
theorem of_savesAs (h : Recalls v n s) (hrep : Represents cs t) (hv : Clause.SatisfiedAll v cs)
    (hfollow : Follows v t.levels) (hremembers : t.assignment.Remembers)
    (hcount : t.atomCount = n) (hsaves : s.assignment.SavesAs t.assignment) : Recalls v n t where
  remembers := hremembers
  atomCount := hcount
  lastValue_eq i hpos hi := by
    rcases hsaves i with hsome | heq
    · obtain ⟨y, hy⟩ := Option.isSome_iff_exists.mp hsome
      rw [hremembers.lastValue_eq hy, hrep.eq_of_value hv hfollow hy]
    · rw [heq, h.lastValue_eq i hpos hi]

theorem closeLevels (h : Recalls v n s) (k : Nat) : Recalls v n (Search.closeLevels k s) :=
  closeLevels_induction (P := Recalls v n) (fun t level _ ht _ =>
    ⟨ht.remembers.unwind level.start, (atomCount_unwind t level.start).trans ht.atomCount,
      ht.lastValue_eq⟩) k h

theorem backjump (h : Recalls v n s) (target : Nat) : Recalls v n (s.backjump target) :=
  (h.closeLevels (s.level - target)).of_eq rfl

theorem propagate (h : Recalls v n s) (hrep : Represents cs s) (hv : Clause.SatisfiedAll v cs)
    (hfollow : Follows v s.levels) : Recalls v n s.propagate.2 := by
  refine h.of_savesAs hrep.propagate hv ?_ ?_ ?_ ?_
  · rw [levels_propagate]
    exact hfollow
  · exact propagate_induction (fun _ l ha => ha.assign l) s h.remembers
  · exact (atomCount_propagate s).trans h.atomCount
  · exact propagate_induction (fun _ l ha => ha.assign l) s fun i => .inr rfl

/-- With phase saving a decision is taken from what is saved. -/
theorem branched (h : Recalls v n s) (hrep : Represents cs s) (hv : Clause.SatisfiedAll v cs)
    (hfollow : Follows v s.levels) (hsaving : s.config.phaseSaving.value = true)
    (hb : s.branch = (some l, t)) : Follows v t.levels ∧ Recalls v n t := by
  have hspec := branch_spec hrep.wellFormed
  have hrep' := hrep.branch
  have hcount := (atomCount_branch s).trans h.atomCount
  have hremembers := branch_induction (P := Assignment.Remembers) (fun _ l ha => ha.assign l) s
    h.remembers
  have hsaves := branch_induction (P := s.assignment.SavesAs) (fun _ l ha => ha.assign l) s
    fun i => .inr rfl
  rw [hb] at hspec hrep' hcount hremembers hsaves
  have hfollow' : Follows v t.levels := by
    cases hspec with
    | @opened _ source counters ho h0 =>
      have hle : l.atom ≤ n := by
        have hlt := (Assignment.isOpen_iff.mp ho).1
        rw [Assignment.atomCount_eq hrep.wellFormed.assignment] at hlt
        rw [← h.atomCount]
        exact Nat.le_of_lt_succ hlt
      have hsaved : s.savedValue l.atom = some (v l.atom) := by
        rw [savedValue, hsaving]
        exact h.lastValue_eq l.atom (Nat.pos_of_ne_zero h0) hle
      intro level hlevel
      rcases List.mem_cons.mp hlevel with rfl | hlevel
      · show l.trueUnder v = true
        rw [Literal.trueUnder, polarity_of_branch hb hsaved, beq_self_eq_true]
      · exact hfollow level hlevel
  exact ⟨hfollow', h.of_savesAs hrep' hv hfollow' hremembers hcount hsaves⟩

/-- A clause that the model satisfies is taken, and leaves the model saved. -/
theorem addClause (h : Recalls v n s) (hrep : Represents cs s) (hv : Clause.SatisfiedAll v cs)
    (hz : ¬ HasZero c) (hmax : c.maxAtom ≤ n) (hc : c.satisfiedBy v = true) :
    (s.addClause c).1 = .ok () ∧ Recalls v n (s.addClause c).2 := by
  have hrep' := hrep.addClause hz
  have hv' : Clause.SatisfiedAll v (cs ++ [c]) := satisfiedAll_concat.mpr ⟨hv, hc⟩
  have hspec := addClause_spec (s := s) hz
  have hmark := (hrep'.sound v hv').1
  constructor
  · generalize s.addClause c = r at hspec hmark
    obtain ⟨answer, t⟩ := r
    cases hspec with
    | taken => rfl
    | contradicting hconfig hinconsistent =>
      rw [hinconsistent] at hmark
      cases hmark
  · have hfollow : Follows v (s.addClause c).2.levels := .of_levels_eq_nil (levels_addClause hz)
    refine h.of_savesAs hrep' hv' hfollow (kept_remembers.addClause c h.remembers) ?_ ?_
    · rw [hrep.atomCount_addClause hz, h.atomCount]
      split
      · rfl
      · exact Nat.max_eq_left hmax
    · exact savesAs_addClause hz

end Recalls

/-! ## The next solve -/

/-- With every atom valued, a model that follows the levels is what the values are. -/
theorem Represents.literals_of_follows (h : Represents cs s) (hv : Clause.SatisfiedAll v cs)
    (hfollow : Follows v s.levels) (hopen : s.assignment.openAtoms = [])
    (hcount : s.atomCount = n) :
    s.assignment.literals = (List.range' 1 n).map fun index => ⟨index, v index⟩ := by
  subst hcount
  refine List.map_congr_left fun i hi => ?_
  rw [List.mem_range'_1] at hi
  have hle : i ≤ s.assignment.atomCount := by omega
  obtain ⟨y, hy⟩ := Assignment.exists_value_of_openAtoms_eq_nil hopen hi.1 hle
  rw [hy, h.eq_of_value hv hfollow hy]
  rfl

/-- What holds of a search that goes after a model it has saved, with `k` conflicts before. -/
structure Resumes (v : Nat → Bool) (n k : Nat) (s : Search) : Prop where
  recalls : Recalls v n s
  follows : Follows v s.levels
  conflicts : s.counters.conflicts = k

variable {k : Nat}

namespace Resumes

theorem countPass (h : Resumes v n k s) : Resumes v n k s.countPass :=
  ⟨h.recalls.of_eq rfl, h.follows, h.conflicts⟩

theorem propagate (h : Resumes v n k s) (hrep : Represents cs s) (hv : Clause.SatisfiedAll v cs) :
    Resumes v n k s.propagate.2 where
  recalls := h.recalls.propagate hrep hv h.follows
  follows := by
    rw [levels_propagate]
    exact h.follows
  conflicts := by
    rw [counters_propagate]
    exact h.conflicts

theorem branched (h : Resumes v n k s) (hrep : Represents cs s) (hv : Clause.SatisfiedAll v cs)
    (hsaving : s.config.phaseSaving.value = true) (hb : s.branch = (some l, t)) :
    Resumes v n k t := by
  obtain ⟨hfollows, hrecalls⟩ := h.recalls.branched hrep hv h.follows hsaving hb
  have hconflicts := conflicts_branch s
  rw [hb] at hconflicts
  exact ⟨hrecalls, hfollows, hconflicts.trans h.conflicts⟩

/-- A pass that answers, answers with the model. -/
theorem answer {report : Report} (h : Resumes v n k s) (hs : Searching cs s)
    (hv : Clause.SatisfiedAll v cs) (hlimit : s.config.timeLimit.value = .zero)
    (hp : Pass clock s (some report) t) :
    report = .satisfiable ((List.range' 1 n).map fun index => ⟨index, v index⟩) ∧
      t.counters.conflicts = k := by
  have hpropagate := h.countPass.propagate hs.countPass.represents hv
  cases hp with
  | late ht =>
    have hlimited : s.countPass.config.timeLimit.value ≠ .zero := limited_of_isOverdue ht
    exact absurd hlimit hlimited
  -- there is no conflict, as the model does not depart from the levels
  | @exhausted _ t _ _ hp hb =>
    obtain ⟨-, hd⟩ := hs.countPass.departs_of_propagate hp
    rw [hp] at hpropagate
    exact absurd (hd v hv) hpropagate.follows.not_departs
  | @complete t _ _ hp hb =>
    obtain ⟨ht, -⟩ := hs.countPass.head_eq_of_propagate hp
    have hspec := branch_spec ht.represents.wellFormed
    have hconflicts := conflicts_branch t
    rw [hp] at hpropagate
    rw [hb] at hspec hconflicts
    cases hspec with
    | complete hopen =>
      refine ⟨congrArg Report.satisfiable ?_, hconflicts.trans hpropagate.conflicts⟩
      exact ht.represents.literals_of_follows hv hpropagate.follows hopen
        hpropagate.recalls.atomCount

end Resumes

theorem Passes.resumes (h : Passes clock s t) (hs : Searching cs s) (hv : Clause.SatisfiedAll v cs)
    (hsaving : s.config.phaseSaving.value = true) (hstart : Resumes v n k s) :
    Resumes v n k t := by
  refine h.induction hs hstart ?_ ?_ ?_
  · intro u hu hresumes
    exact hresumes.countPass.propagate hu.countPass.represents hv
  · intro u w hu hd hresumes hb
    exact absurd (hd v hv) hresumes.follows.not_departs
  · intro u l w hu hconfig hresumes hb
    exact hresumes.branched hu.represents hv (hconfig ▸ hsaving) hb

/-- A model that is saved is reported, without a conflict. -/
theorem Represents.solve_of_recalls (h : Represents cs s) (clock : Clock)
    (hv : Clause.SatisfiedAll v cs) (hrecalls : Recalls v n s)
    (hsaving : s.config.phaseSaving.value = true) (hlimit : s.config.timeLimit.value = .zero) :
    (s.solve clock).1 = .satisfiable ((List.range' 1 n).map fun index => ⟨index, v index⟩) ∧
      (s.solve clock).2.counters.conflicts = s.counters.conflicts := by
  have hi := (h.sound v hv).1
  have hs := Searching.restart h hi
  have hconfig := (keeps_backjump 0 s).config
  have hstart : Resumes v n s.counters.conflicts { s.backjump 0 with head := 0 } := by
    refine ⟨(hrecalls.backjump 0).of_eq rfl, .of_levels_eq_nil (levels_backjump_zero s), ?_⟩
    exact congrArg Counters.conflicts (counters_closeLevels (s.level - 0) s)
  obtain ⟨t, hpasses, hanswer⟩ := hs.run clock
  have hresumes := hpasses.resumes hs hv (hconfig.symm ▸ hsaving) hstart
  have hconfig' : t.config = s.config := hpasses.config_eq.trans hconfig
  rw [← hconfig'] at hlimit
  rw [solve_of_consistent hi]
  exact hresumes.answer (hpasses.searching hs) hv hlimit hanswer

/-- A model that a solve reports is saved by it. -/
theorem Represents.recalls_solve (h : Represents cs s) (hremembers : s.assignment.Remembers)
    {ls : List Literal} (hsolve : (s.solve clock).1 = .satisfiable ls) :
    Recalls (reading ls) s.atomCount (s.solve clock).2 ∧
      ls = (List.range' 1 s.atomCount).map fun index => ⟨index, reading ls index⟩ := by
  obtain ⟨hi, t, u, hpasses, hp, hb, rfl⟩ := h.exists_complete hsolve
  have ht := (hpasses.searching (Searching.restart h hi)).countPass
  obtain ⟨hu, -⟩ := ht.head_eq_of_propagate hp
  have hspec := branch_spec hu.represents.wellFormed
  have hremembers' := kept_remembers.stepInvariant.solve clock hremembers
  have hcount := atomCount_solve clock s
  rw [hb] at hspec
  generalize (s.solve clock).2 = w at hspec hremembers' hcount ⊢
  cases hspec with
  | complete hopen =>
    rw [reading_literals hu.represents.wellFormed.assignment, ← hcount]
    refine ⟨⟨hremembers', rfl, fun i hpos hi => ?_⟩, rfl⟩
    obtain ⟨y, hy⟩ := Assignment.exists_value_of_openAtoms_eq_nil hopen hpos hi
    rw [hremembers'.lastValue_eq hy, Assignment.valuation, hy]
    rfl

/-- Clauses that the model saved satisfies are taken one after the other, and leave it saved. -/
theorem Recalls.addAll (h : Recalls v n s) (hrep : Represents cs s) (hv : Clause.SatisfiedAll v cs)
    (clock : Clock) {ds : List Clause}
    (hds : ∀ c ∈ ds, ¬ HasZero c ∧ c.maxAtom ≤ n ∧ c.satisfiedBy v = true) :
    ∃ t, (oracle clock).addAll ds s = (.ok (), t) ∧ Recalls v n t ∧ Represents (cs ++ ds) t ∧
      t.config = s.config ∧ t.counters = s.counters := by
  induction ds generalizing cs s with
  | nil => exact ⟨s, rfl, h, hrep.append_nil, rfl, rfl⟩
  | cons c ds ih =>
    obtain ⟨⟨hz, hmax, hc⟩, hds⟩ := List.forall_mem_cons.mp hds
    obtain ⟨hok, hrecalls⟩ := h.addClause hrep hv hz hmax hc
    have hconfig := (persists_addClause s c).config
    have hcounters := counters_addClause s c
    obtain ⟨t, ht, hrecalls', hrep', hconfig', hcounters'⟩ :=
      ih hrecalls (hrep.addClause hz) (satisfiedAll_concat.mpr ⟨hv, hc⟩) hds
    refine ⟨t, ?_, hrecalls', ?_, hconfig'.trans hconfig, hcounters'.trans hcounters⟩
    · have hadd : (oracle clock).addClause c s = (.ok (), (s.addClause c).2) := by
        rw [← hok]
        rfl
      rw [Oracle.addAll, hadd]
      exact ht
    · rwa [List.append_assoc] at hrep'

/-! ## Every history -/

/-- Whatever calls are made on a new search that saves phases and has no time limit, a model stays
the one that is reported: after a solve that reports it, clauses over the atoms in use that it
satisfies are all taken, and the next solve reports it again, without a conflict. -/
theorem solve_again_of_reaches (config : Config) (source : Random.Source) (n : Nat)
    (hsaving : config.phaseSaving.value = true) (hlimit : config.timeLimit.value = .zero)
    (h : Reaches (fun t call => call.IsSound t) (withSource config source n) calls s)
    {ls : List Literal} (hsolve : (s.solve clock).1 = .satisfiable ls) {added : List Clause}
    (hadded : ∀ c ∈ added, ¬ HasZero c ∧ c.maxAtom ≤ (s.solve clock).2.atomCount ∧
      c.satisfiedBy (reading ls) = true) (clock' : Clock) :
    ∃ t, (oracle clock').addAll added (s.solve clock).2 = (.ok (), t) ∧
      (t.solve clock').1 = .satisfiable ls ∧
      (t.solve clock').2.counters.conflicts = (s.solve clock).2.counters.conflicts := by
  have hrep := h.represents (represents_withSource config source n)
  have hremembers := kept_remembers.reaches h (Assignment.remembers_new n)
  obtain ⟨hrecalls, hls⟩ := hrep.recalls_solve hremembers hsolve
  obtain ⟨hrep', hright⟩ := hrep.solve clock
  rw [hsolve] at hright
  rw [atomCount_solve] at hadded
  cases hright with
  | satisfiable hatoms hmodel =>
    obtain ⟨t, ht, hrecalls', hrep'', hconfig, hcounters⟩ :=
      hrecalls.addAll hrep' hmodel clock' hadded
    have hconfig' : t.config = config :=
      hconfig.trans ((config_solve clock s).trans h.persists.config)
    have hmodel' : Clause.SatisfiedAll (reading ls) ([] ++ given calls ++ added) :=
      Clause.satisfiedAll_append.mpr ⟨hmodel, fun c hc => (hadded c hc).2.2⟩
    rw [← hconfig'] at hsaving hlimit
    obtain ⟨hreport, hconflicts⟩ :=
      hrep''.solve_of_recalls clock' hmodel' hrecalls' hsaving hlimit
    rw [← hls] at hreport
    exact ⟨t, ht, hreport, hconflicts.trans (congrArg Counters.conflicts hcounters)⟩

/-- A decision that was turned round saved the first atom as true, so the model reported is not the
first in order. It stays when two clauses are added that it satisfies. -/
theorem solve_again_after_backtracking :
    let new := withSource .default ⟨fun _ => 0, 0⟩ 3
    let calls : List Call := [.addClause [⟨1, true⟩, ⟨2, true⟩], .branch, .backtrack]
    let s := calls.foldl (fun s call => (s.perform call).2) new
    let clock : Clock := fun _ => .zero
    let ls : List Literal := [⟨1, true⟩, ⟨2, false⟩, ⟨3, false⟩]
    let added : List Clause := [[⟨3, true⟩, ⟨1, true⟩], [⟨2, false⟩]]
    (Config.default.phaseSaving.value = true ∧ Config.default.timeLimit.value = .zero ∧
        Reaches (fun t call => call.IsSound t) new calls s ∧
        (s.solve clock).1 = .satisfiable ls ∧
        ∀ c ∈ added, ¬ HasZero c ∧ c.maxAtom ≤ (s.solve clock).2.atomCount ∧
          c.satisfiedBy (reading ls) = true) ∧
      ∃ t, (oracle clock).addAll added (s.solve clock).2 = (.ok (), t) ∧
        (t.solve clock).1 = .satisfiable ls ∧
        (t.solve clock).2.counters.conflicts = (s.solve clock).2.counters.conflicts := by
  intro new calls s clock ls added
  have hsaving : Config.default.phaseSaving.value = true := rfl
  have hlimit : Config.default.timeLimit.value = .zero := rfl
  have hr : Reaches (fun t call => call.IsSound t) new calls s :=
    ((Reaches.refl.call trivial).call trivial).call trivial
  have hsolve : (s.solve clock).1 = .satisfiable ls := by decide +kernel
  have hadded : ∀ c ∈ added, ¬ HasZero c ∧ c.maxAtom ≤ (s.solve clock).2.atomCount ∧
      c.satisfiedBy (reading ls) = true := by
    decide +kernel
  exact ⟨⟨hsaving, hlimit, hr, hsolve, hadded⟩,
    solve_again_of_reaches .default ⟨fun _ => 0, 0⟩ 3 hsaving hlimit hr hsolve hadded clock⟩

end Clausal.Search
