import Clausal.Proofs.Search.Calls
import Clausal.Proofs.Valuation
import Mathlib.Data.Bool.Basic
import Mathlib.Order.Bounds.Basic
import Mathlib.Order.Fin.Basic
import Mathlib.Order.PiLex

/-!
# Which model is found

Without phase saving, and with probabilities that leave nothing to chance, the first open atom is
decided, and always with the same polarity. So atoms below that of a decision are on the trail before
it, and a decision with the other polarity is one that was turned round. If a model differs from the
one found, look at the first atom where it does: a level up to there has a decision that the model
makes false, which can only be that of this atom, and it was not turned round, since the models of
the preferred side had been ruled out then. The model found is therefore the first of all in
lexicographic order, or the last. It depends on nothing but the clauses.
-/

namespace Clausal

/-! ## Settings that leave nothing to chance -/

namespace Binary64

variable {x : Binary64}

/-- Zero is not below a zero, whatever its sign. -/
theorem not_zero_lt (h : x.magnitude = 0) : ¬ zero < x := by
  intro hlt
  have hrank : (0 : Int) < x.rank := hlt.2.2
  simp [rank, h] at hrank

theorem floorScaled_eq_zero (h : x.magnitude = 0) (k : Nat) : x.floorScaled k = 0 := by
  have hexponent : x.biasedExponent = 0 := by rw [biasedExponent, h, Nat.zero_div]
  rw [floorScaled, significand, if_pos hexponent, h, Nat.zero_mul, Nat.zero_div]

end Binary64

/-- What has no chance does not happen. -/
theorem Random.Source.drawBool_eq_false {p : Binary64} (source : Source) (h : p.magnitude = 0) :
    (source.drawBool p).1 = false := by
  have hone : Binary64.one.magnitude ≠ 0 := by decide
  have hne : p ≠ .one := fun heq => hone (heq ▸ h)
  rw [drawBool, if_neg hne]
  simp only [Binary64.floorScaled_eq_zero h, Nat.not_lt_zero, decide_false]

/-- Nothing is left to chance: the first open atom is decided, always with the polarity `b`. A zero
may have either sign. -/
structure Config.IsSteady (b : Bool) (config : Config) : Prop where
  phaseSaving : config.phaseSaving.value = false
  decisionBias : config.decisionBias.value.magnitude = 0
  polarityBias : match b with
    | false => config.polarityBias.value.magnitude = 0
    | true => config.polarityBias.value = .one

namespace Search

variable {s t u : Search} {cs : List Clause} {l : Literal} {level : Level} {below : List Level}
  {b : Bool} {clock : Clock}

theorem drawBool_of_isSteady (h : s.config.IsSteady b) (source : Random.Source) :
    (source.drawBool s.config.polarityBias.value).1 = b := by
  have hbias := h.polarityBias
  cases b with
  | true => rw [Random.Source.drawBool, if_pos hbias]
  | false => exact source.drawBool_eq_false hbias

/-- The literal decided is one of the first open atom, with the polarity preferred. -/
theorem decision_of_isSteady (h : s.config.IsSteady b) (hb : s.branch = (some l, t)) :
    s.assignment.openAtoms.head? = some l.atom ∧ l.polarity = b := by
  have hchoose : s.chooseAtom = (s.assignment.firstOpen?, s.source) :=
    if_neg (Binary64.not_zero_lt h.decisionBias)
  have hpolarity : ∀ index, (s.choosePolarity index).1 = b := by
    intro index
    have hsaved : s.savedValue index = none := by
      rw [savedValue, h.phaseSaving]
      rfl
    rw [choosePolarity, hsaved]
    exact drawBool_of_isSteady h s.source
  rw [← Assignment.firstOpen?_eq_head?]
  unfold branch at hb
  rw [hchoose] at hb
  cases hfirst : s.assignment.firstOpen? with
  | none =>
    rw [hfirst] at hb
    cases hb
  | some index =>
    rw [hfirst] at hb
    obtain ⟨hl, -⟩ := Prod.mk.inj hb
    cases hl
    exact ⟨rfl, hpolarity index⟩

/-- Atoms below the first open one have values. -/
theorem Assignment.value_isSome_of_head? {a : Assignment} {first i : Nat}
    (h : a.openAtoms.head? = some first) (hpos : 0 < i) (hi : i < first) :
    (a.value i).isSome := by
  have hsorted : a.openAtoms.Pairwise (· < ·) := (List.pairwise_lt_range' (s := 1)).filter _
  obtain ⟨rest, hrest⟩ := List.head?_eq_some_iff.mp h
  have hfirst : first ∈ a.openAtoms := by simp [hrest]
  by_contra hnone
  have hmem : i ∈ a.openAtoms := by
    simp only [openAtoms, List.mem_filter, List.mem_range'_1] at hfirst ⊢
    refine ⟨by omega, ?_⟩
    simpa using hnone
  rw [hrest] at hsorted hmem
  rcases List.mem_cons.mp hmem with rfl | hmem
  · omega
  · have hlt := (List.pairwise_cons.mp hsorted).1 i hmem
    omega

/-! ## Decisions in order -/

/-- The atoms below that of a decision have a place on the trail before it, and a decision that was
not turned round has the polarity `b`. -/
structure Orderly (b : Bool) (s : Search) : Prop where
  inOrder : ∀ level ∈ s.levels, ∀ i, 0 < i → i < level.decision.atom →
    ∃ p l, p < level.start ∧ s.assignment.trail[p]? = some l ∧ l.atom = i
  preferred : ∀ level ∈ s.levels, level.flipped = false → level.decision.polarity = b

namespace Orderly

theorem of_eq (h : Orderly b s) (ha : t.assignment = s.assignment) (hl : t.levels = s.levels) :
    Orderly b t := by
  constructor
  · rw [ha, hl]
    exact h.inOrder
  · rw [hl]
    exact h.preferred

theorem of_levels_eq_nil (hl : s.levels = []) : Orderly b s := by
  constructor <;> simp [hl]

/-- A longer trail has the same places. -/
theorem of_extends (h : Orderly b s) (he : Extends s t) : Orderly b t where
  inOrder level hlevel i hpos hi := by
    rw [he.levels] at hlevel
    obtain ⟨p, l, hp, hl, hli⟩ := h.inOrder level hlevel i hpos hi
    exact ⟨p, l, hp, Assignment.getElem?_of_isPrefix he.trail hl, hli⟩
  preferred level hlevel := h.preferred level (he.levels ▸ hlevel)

/-- The places before a level are left when the level is closed. -/
theorem places_closed (h : Orderly b s) (hl : s.levels = level :: below) {i : Nat} (hpos : 0 < i)
    (hi : i < level.decision.atom) : ∃ p m, p < (s.closed level below).assignment.trail.size ∧
      (s.closed level below).assignment.trail[p]? = some m ∧ m.atom = i := by
  obtain ⟨p, m, hp, hm, hmi⟩ := h.inOrder level (by simp [hl]) i hpos hi
  have hclosed : (s.closed level below).assignment.trail[p]? = some m := by
    rw [getElem?_trail_closed, if_pos hp, hm]
  exact ⟨p, m, (Array.getElem?_eq_some_iff.mp hclosed).1, hclosed, hmi⟩

theorem closed (h : Orderly b s) (hw : s.WellFormed) (hl : s.levels = level :: below) :
    Orderly b (s.closed level below) where
  inOrder other hother i hpos hi := by
    have hsorted := hw.sorted
    rw [hl] at hsorted
    have hlt := (List.pairwise_cons.mp hsorted).1 other hother
    obtain ⟨p, m, hp, hm, hmi⟩ := h.inOrder other (hl ▸ List.mem_cons_of_mem _ hother) i hpos hi
    exact ⟨p, m, hp, by rw [getElem?_trail_closed, if_pos (Nat.lt_trans hp hlt), hm], hmi⟩
  preferred other hother := h.preferred other (hl ▸ List.mem_cons_of_mem _ hother)

theorem closeLevels (h : Orderly b s) (hw : s.WellFormed) (n : Nat) :
    Orderly b (Search.closeLevels n s) :=
  (closeLevels_induction (P := fun t => Orderly b t ∧ t.WellFormed)
    (fun _ _ _ h hl => ⟨h.1.closed h.2 hl, h.2.closed hl⟩) n ⟨h, hw⟩).1

/-- A level is opened in order if the atoms below its own are on the trail. -/
theorem openLevel (h : Orderly b s) (ho : s.assignment.IsOpen l.atom) {flipped : Bool}
    (hplaces : ∀ i, 0 < i → i < l.atom →
      ∃ p m, p < s.assignment.trail.size ∧ s.assignment.trail[p]? = some m ∧ m.atom = i)
    (hpolarity : flipped = false → l.polarity = b) : Orderly b (s.openLevel l flipped) where
  inOrder other hother i hpos hi := by
    have hplace : ∃ p m, p < other.start ∧ s.assignment.trail[p]? = some m ∧ m.atom = i := by
      rcases List.mem_cons.mp hother with rfl | hother
      · exact hplaces i hpos hi
      · exact h.inOrder other hother i hpos hi
    obtain ⟨p, m, hp, hm, hmi⟩ := hplace
    have hsize := (Array.getElem?_eq_some_iff.mp hm).1
    exact ⟨p, m, hp, (getElem?_openLevel ho hsize).trans hm, hmi⟩
  preferred other hother hflipped := by
    rcases List.mem_cons.mp hother with rfl | hother
    · exact hpolarity hflipped
    · exact h.preferred other hother hflipped

theorem backtracked (h : Orderly b s) (hw : s.WellFormed) (hb : Backtracked s true t) :
    Orderly b t := by
  cases hb with
  | @turned above below level hl habove hlevel =>
    have hlevels := levels_closeLevels_append hl
    have hw' := hw.closeLevels above.length
    have h' := h.closeLevels hw above.length
    obtain ⟨ho, -⟩ := hw'.isOpen_closed hlevels
    rw [← Literal.atom_neg] at ho
    have hclosed : Orderly b { (Search.closeLevels above.length s).closed level below with
        head := ((Search.closeLevels above.length s).closed level below).assignment.trail.size } :=
      (h'.closed hw' hlevels).of_eq rfl rfl
    refine hclosed.openLevel ho (fun i hpos hi => h'.places_closed hlevels hpos hi) ?_
    intro hflipped
    cases hflipped

theorem branched (h : Orderly b s) (hw : s.WellFormed) (hsteady : s.config.IsSteady b)
    (hb : s.branch = (some l, t)) : Orderly b t := by
  obtain ⟨hfirst, hpolarity⟩ := decision_of_isSteady hsteady hb
  have hspec := branch_spec hw
  rw [hb] at hspec
  cases hspec with
  | @opened _ source counters ho h0 =>
    have hdrawn : Orderly b { s with source, counters } := h.of_eq rfl rfl
    refine hdrawn.openLevel ho (fun i hpos hi => ?_) fun _ => hpolarity
    obtain ⟨y, hy⟩ := Option.isSome_iff_exists.mp (Assignment.value_isSome_of_head? hfirst hpos hi)
    obtain ⟨p, hp⟩ := Array.mem_iff_getElem?.mp ((hw.assignment.mem_trail ⟨i, y⟩).mpr hy)
    exact ⟨p, ⟨i, y⟩, (Array.getElem?_eq_some_iff.mp hp).1, hp, rfl⟩

theorem propagate (h : Orderly b s) (hw : s.WellFormed) : Orderly b s.propagate.2 :=
  h.of_extends (wellFormed_extends_propagate hw).2

end Orderly

theorem Passes.orderly (h : Passes clock s t) (hs : Searching cs s) (hl : s.levels = [])
    (hsteady : s.config.IsSteady b) : Orderly b t := by
  refine h.induction hs (.of_levels_eq_nil hl) ?_ ?_ ?_
  · intro u hu horderly
    have hcount : Orderly b u.countPass := horderly.of_eq rfl rfl
    exact hcount.propagate hu.countPass.represents.wellFormed
  · intro u w hu _ horderly hb
    have hcount : Orderly b u.countConflict := horderly.of_eq rfl rfl
    exact hcount.backtracked hu.represents.wellFormed hb
  · intro u l w hu hconfig horderly hb
    exact horderly.branched hu.represents.wellFormed (hconfig ▸ hsteady) hb

/-! ## The first difference -/

/-- Where a model makes a literal of the trail false, it makes a decision up to there false. -/
theorem Represents.exists_decision_false (h : Represents cs s) {w : Nat → Bool}
    (hw : Clause.SatisfiedAll w cs) {p : Nat} (hp : s.assignment.trail[p]? = some l)
    (hl : l.trueUnder w = false) :
    ∃ level ∈ s.levels, level.start ≤ p ∧ level.decision.trueUnder w = false := by
  by_contra hnone
  have hdecisions : ∀ level ∈ s.levels, level.start < p + 1 → level.decision.trueUnder w = true := by
    intro level hlevel hlt
    by_contra hfalse
    exact hnone ⟨level, hlevel, Nat.le_of_lt_succ hlt, by simpa using hfalse⟩
  rw [h.trail_true hw (p + 1) hdecisions p (Nat.lt_succ_self p) l hp] at hl
  cases hl

/-- The lowest level whose decision a model makes false was not turned round: otherwise the model
would have departed below it. -/
theorem Searching.flipped_eq_false (h : Searching cs s) {w : Nat → Bool}
    (hw : Clause.SatisfiedAll w cs) (hlevel : level ∈ s.levels)
    (hfalse : level.decision.trueUnder w = false)
    (hlowest : ∀ other ∈ s.levels, other.decision.trueUnder w = false →
      level.start ≤ other.start) : level.flipped = false := by
  rcases h.covered w hw with hfollows | ⟨above, other, below, hlevels, hunturned, hother, hbelow⟩
  · rw [hfollows level hlevel] at hfalse
    cases hfalse
  · have hle := hlowest other (by simp [hlevels]) hother
    rw [hlevels] at hlevel
    rcases List.mem_append.mp hlevel with habove | hlevel
    · have hsorted := h.represents.wellFormed.sorted
      rw [hlevels] at hsorted
      have hlt := (List.pairwise_append.mp hsorted).2.2 level habove other List.mem_cons_self
      omega
    · rcases List.mem_cons.mp hlevel with rfl | hlevel
      · exact hunturned
      · rw [hbelow level hlevel] at hfalse
        cases hfalse

/-- Up to the place of the first atom where a valuation differs, it makes no other decision false
than that of this atom. -/
theorem Orderly.start_eq (h : Orderly b s) (hw : s.WellFormed) {w : Nat → Bool} {p : Nat}
    (hp : s.assignment.trail[p]? = some l)
    (hbelow : ∀ i, 0 < i → i < l.atom → w i = s.assignment.valuation i) (hlevel : level ∈ s.levels)
    (hfalse : level.decision.trueUnder w = false) (hstart : level.start ≤ p) :
    level.start = p := by
  have ha := hw.assignment
  have hdecision := hw.decisions level hlevel
  have hmem := Array.mem_of_getElem? hdecision
  have htrue := ha.trueUnder_valuation hmem
  rcases Nat.lt_trichotomy level.decision.atom l.atom with hlt | heq | hgt
  · rw [Literal.trueUnder, hbelow _ (ha.range_of_mem hmem).1 hlt] at hfalse
    rw [Literal.trueUnder, hfalse] at htrue
    cases htrue
  · exact ha.eq_of_atom_eq hdecision hp heq
  -- the atom was on the trail before such a decision
  · obtain ⟨q, m, hq, hm, hml⟩ :=
      h.inOrder level hlevel l.atom (ha.range_of_mem (Array.mem_of_getElem? hp)).1 hgt
    have hqp := ha.eq_of_atom_eq hm hp hml
    omega

/-- Where a model first differs from the values of a search, these have the polarity preferred. -/
theorem Searching.valuation_eq_of_first_difference (h : Searching cs s) (horderly : Orderly b s)
    (hopen : s.assignment.openAtoms = []) {w : Nat → Bool} (hw : Clause.SatisfiedAll w cs) {x : Nat}
    (hpos : 0 < x) (hx : x ≤ s.atomCount)
    (hbelow : ∀ i, 0 < i → i < x → w i = s.assignment.valuation i)
    (hne : w x ≠ s.assignment.valuation x) : s.assignment.valuation x = b := by
  have hwf := h.represents.wellFormed
  obtain ⟨y, hy⟩ := Assignment.exists_value_of_openAtoms_eq_nil hopen hpos hx
  obtain ⟨p, hp⟩ := Array.mem_iff_getElem?.mp ((hwf.assignment.mem_trail ⟨x, y⟩).mpr hy)
  have hvalue : s.assignment.valuation x = y := by simp [Assignment.valuation, hy]
  have hxfalse : Literal.trueUnder w ⟨x, y⟩ = false := by
    rw [hvalue] at hne
    simpa [Literal.trueUnder] using hne
  obtain ⟨level, hlevel, hle, hfalse⟩ := h.represents.exists_decision_false hw hp hxfalse
  have hstart : level.start = p := horderly.start_eq hwf hp hbelow hlevel hfalse hle
  have hunturned : level.flipped = false := by
    refine h.flipped_eq_false hw hlevel hfalse fun other hother hotherFalse => ?_
    by_contra hlt
    have := horderly.start_eq hwf hp hbelow hother hotherFalse (by omega)
    omega
  have hdecision := hwf.decisions level hlevel
  rw [hstart, hp] at hdecision
  have hpreferred := horderly.preferred level hlevel hunturned
  rwa [← Option.some.inj hdecision, ← hvalue] at hpreferred

/-! ## The first model, and the last -/

/-- The value of the atom of an index, and false if the atom is not among `1, …, n`. -/
def valueAt {n : Nat} (v : Lex (Fin n → Bool)) : Nat → Bool := Valuation.value fun i : Fin n => v i

/-- The valuations of the atoms `1, …, n` that satisfy clauses, in lexicographic order. -/
def models (n : Nat) (cs : List Clause) : Set (Lex (Fin n → Bool)) :=
  {v | Clause.SatisfiedAll (valueAt v) cs}

/-- One literal for each of the atoms `1, …, n`, in order. -/
def literalsOf {n : Nat} (v : Lex (Fin n → Bool)) : List Literal :=
  (List.range' 1 n).map fun index => ⟨index, valueAt v index⟩

/-- The first member of a set in its order, or else the last. -/
def IsExtreme {α : Type} [Preorder α] (last : Bool) (S : Set α) (x : α) : Prop :=
  match last with
  | false => IsLeast S x
  | true => IsGreatest S x

theorem IsExtreme.unique {α : Type} [PartialOrder α] {S : Set α} {x y : α} (h : IsExtreme b S x)
    (h' : IsExtreme b S y) : x = y := by
  cases b with
  | false => exact IsLeast.unique h h'
  | true => exact IsGreatest.unique h h'

/-- The values of an assignment, as a valuation of its atoms. -/
def Assignment.vector (a : Assignment) : Lex (Fin a.atomCount → Bool) :=
  toLex (Valuation.ofValues a.atomCount a.valuation)

/-- Atoms out of range have no value, and count as false. -/
theorem Assignment.Consistent.value_vector {a : Assignment} (h : a.Consistent) :
    valueAt a.vector = a.valuation := by
  funext i
  by_cases hi : 0 < i ∧ i ≤ a.atomCount
  · exact Valuation.value_ofValues a.valuation hi.1 hi.2
  · have hnone : a.value i = none := by
      cases hv : a.value i with
      | none => rfl
      | some y => exact absurd (h.range_of_mem ((h.mem_trail ⟨i, y⟩).mpr hv)) hi
    rw [valuation, hnone]
    exact dif_neg hi

theorem Assignment.literals_eq (a : Assignment) : a.literals = literalsOf a.vector := by
  refine List.map_congr_left fun i hi => ?_
  rw [List.mem_range'_1] at hi
  have hvalue : valueAt a.vector i = a.valuation i :=
    Valuation.value_ofValues a.valuation (by omega) (by omega)
  rw [hvalue]
  rfl

/-- With every atom valued and the trail propagated to the end, no model comes before the values, or
after them. -/
theorem Searching.isExtreme (h : Searching cs s) (horderly : Orderly b s)
    (hh : s.head = s.assignment.trail.size) (hopen : s.assignment.openAtoms = []) :
    IsExtreme b (models s.assignment.atomCount cs) s.assignment.vector := by
  have hvalue := h.represents.wellFormed.assignment.value_vector
  have hmem : s.assignment.vector ∈ models s.assignment.atomCount cs := by
    show Clause.SatisfiedAll (valueAt s.assignment.vector) cs
    rw [hvalue]
    exact h.satisfiedAll_valuation hh hopen
  -- where a model first differs it has the other polarity
  have hfirst : ∀ w ∈ models s.assignment.atomCount cs, ∀ i,
      (∀ j < i, w j = s.assignment.vector j) → w i ≠ s.assignment.vector i →
      s.assignment.vector i = b := by
    intro w hw i hbelow hne
    have hvi : valueAt s.assignment.vector (i.val + 1) = s.assignment.vector i :=
      Valuation.value_succ _ i
    have hwi : valueAt w (i.val + 1) = w i := Valuation.value_succ _ i
    rw [hvalue] at hvi
    rw [← hvi]
    refine h.valuation_eq_of_first_difference horderly hopen hw (Nat.succ_pos i.val) i.isLt ?_ ?_
    · intro k hpos hk
      rw [← hvalue]
      exact Valuation.value_eq_of_forall_lt hbelow hpos (Nat.le_of_lt_succ hk)
    · rw [hvi, hwi]
      exact hne
  cases b with
  | false =>
    refine ⟨hmem, fun w hw => ?_⟩
    by_contra hnot
    obtain ⟨i, hbelow, hi⟩ := not_le.mp hnot
    have hfalse := hfirst w hw i hbelow (ne_of_lt hi)
    rw [hfalse] at hi
    cases (Bool.lt_iff.mp hi).2
  | true =>
    refine ⟨hmem, fun w hw => ?_⟩
    by_contra hnot
    obtain ⟨i, hbelow, hi⟩ := not_le.mp hnot
    have htrue := hfirst w hw i (fun j hj => (hbelow j hj).symm) (ne_of_gt hi)
    rw [htrue] at hi
    cases (Bool.lt_iff.mp hi).1

/-- A model that a solve reports is the first of all, or the last. -/
theorem Represents.solve_isExtreme (h : Represents cs s) (hsteady : s.config.IsSteady b)
    {ls : List Literal} (hsolve : (s.solve clock).1 = .satisfiable ls) :
    ∃ v, ls = literalsOf v ∧ IsExtreme b (models s.atomCount cs) v := by
  obtain ⟨hi, t, u, hpasses, hp, hb, rfl⟩ := h.exists_complete hsolve
  have hs := Searching.restart h hi
  have ht := (hpasses.searching hs).countPass
  have hsteady' : (s.backjump 0).config.IsSteady b := (keeps_backjump 0 s).config.symm ▸ hsteady
  have horderly : Orderly b t.countPass :=
    (hpasses.orderly hs (levels_backjump_zero s) hsteady').of_eq rfl rfl
  have horderly' := horderly.propagate ht.represents.wellFormed
  have hcount : t.countPass.propagate.2.atomCount = s.atomCount :=
    (atomCount_propagate t.countPass).trans (hpasses.atomCount_eq.trans (atomCount_backjump 0 s))
  obtain ⟨hu, hh⟩ := ht.head_eq_of_propagate hp
  have hspec := branch_spec hu.represents.wellFormed
  rw [hp] at horderly' hcount
  rw [hb] at hspec
  generalize (s.solve clock).2 = w at hspec ⊢
  cases hspec with
  | complete hopen =>
    rw [← hcount]
    exact ⟨_, u.assignment.literals_eq, hu.isExtreme horderly' hh hopen⟩

/-! ## Every history -/

/-- Lists of clauses that are the same but for the order and repetition of clauses, and of literals
in clauses. -/
def SameClauses (cs ds : List Clause) : Prop :=
  ∀ c, c ∈ cs.map Clause.canonical ↔ c ∈ ds.map Clause.canonical

theorem satisfiedAll_map_canonical (cs : List Clause) {v : Nat → Bool} :
    Clause.SatisfiedAll v (cs.map Clause.canonical) ↔ Clause.SatisfiedAll v cs := by
  simp [Clause.SatisfiedAll]

theorem SameClauses.satisfiedAll_iff {ds : List Clause} (h : SameClauses cs ds) (v : Nat → Bool) :
    Clause.SatisfiedAll v cs ↔ Clause.SatisfiedAll v ds := by
  rw [← satisfiedAll_map_canonical cs, ← satisfiedAll_map_canonical ds]
  exact forall_congr' fun c => imp_congr_left (h c)

theorem SameClauses.models_eq {ds : List Clause} (h : SameClauses cs ds) (n : Nat) :
    models n cs = models n ds := by
  ext v
  exact h.satisfiedAll_iff _

/-- Searches for the same clauses over the same atoms report the same, unless time is up. -/
theorem Represents.solve_eq {ds : List Clause} {clock' : Clock} (h : Represents cs s)
    (h' : Represents ds t) (hsteady : s.config.IsSteady b) (hsteady' : t.config.IsSteady b)
    (hcs : SameClauses cs ds) (hcount : t.atomCount = s.atomCount)
    (hs : (s.solve clock).1 ≠ .timeUp) (ht : (t.solve clock').1 ≠ .timeUp) :
    (t.solve clock').1 = (s.solve clock).1 := by
  have hright := (h.solve clock).2
  have hright' := (h'.solve clock').2
  have hextreme : ∀ ls, (s.solve clock).1 = .satisfiable ls →
      ∃ v, ls = literalsOf v ∧ IsExtreme b (models s.atomCount cs) v :=
    fun ls => h.solve_isExtreme hsteady
  have hextreme' : ∀ ls, (t.solve clock').1 = .satisfiable ls →
      ∃ v, ls = literalsOf v ∧ IsExtreme b (models s.atomCount cs) v := by
    rw [← hcount, hcs.models_eq]
    exact fun ls => h'.solve_isExtreme hsteady'
  generalize (s.solve clock).1 = r at hs hright hextreme ⊢
  generalize (t.solve clock').1 = r' at ht hright' hextreme' ⊢
  cases hright with
  | timeUp => exact absurd rfl hs
  | @satisfiable ls hatoms hmodel =>
    cases hright' with
    | timeUp => exact absurd rfl ht
    | unsatisfiable hno => exact absurd ((hcs.satisfiedAll_iff _).mp hmodel) (hno _)
    | @satisfiable ls' hatoms' hmodel' =>
      obtain ⟨v, rfl, hv⟩ := hextreme ls rfl
      obtain ⟨v', rfl, hv'⟩ := hextreme' ls' rfl
      rw [hv.unique hv']
  | unsatisfiable hno =>
    cases hright' with
    | timeUp => exact absurd rfl ht
    | unsatisfiable => rfl
    | satisfiable hatoms hmodel => exact absurd ((hcs.satisfiedAll_iff _).mpr hmodel) (hno _)

/-- Whatever calls are made on a new search that leaves nothing to chance, a model that a solve
reports is the first in lexicographic order of those that satisfy the clauses accepted so far, or the
last if decisions make atoms true. So a solve reports the same after other calls that give the same
clauses, whatever their order, what they repeat and what was solved in between. -/
theorem solve_isExtreme_of_reaches (config : Config) (source : Random.Source) (n : Nat)
    (hsteady : config.IsSteady b) {calls : List Call}
    (h : Reaches (fun t call => call.IsSound t) (withSource config source n) calls s) :
    (∀ clock ls, (s.solve clock).1 = .satisfiable ls →
        ∃ v, ls = literalsOf v ∧
          IsExtreme b (models s.atomCount (accepted (withSource config source n) calls)) v) ∧
      ∀ config' source' calls' t, config'.IsSteady b →
        Reaches (fun t call => call.IsSound t) (withSource config' source' n) calls' t →
        SameClauses (accepted (withSource config source n) calls)
          (accepted (withSource config' source' n) calls') →
        ∀ clock clock', (s.solve clock).1 ≠ .timeUp → (t.solve clock').1 ≠ .timeUp →
          (t.solve clock').1 = (s.solve clock).1 := by
  have hrep := h.represents (represents_withSource config source n)
  have hsteady_s : s.config.IsSteady b := h.persists.config.symm ▸ hsteady
  rw [accepted_eq_given]
  refine ⟨fun clock ls hsolve => hrep.solve_isExtreme hsteady_s hsolve, ?_⟩
  intro config' source' calls' t hsteady' h' hsame clock clock' hs ht
  have hrep' := h'.represents (represents_withSource config' source' n)
  have hsteady_t : t.config.IsSteady b := h'.persists.config.symm ▸ hsteady'
  rw [accepted_eq_given] at hsame
  refine hrep.solve_eq hrep' hsteady_s hsteady_t hsame ?_ hs ht
  -- both searches have the atoms of the same clauses
  refine eq_of_forall_ge_iff fun m => ?_
  have hmap : ∀ cs : List Clause,
      (∀ c ∈ cs, c.canonical.hasComplement = false → c.maxAtom ≤ m) ↔
        ∀ c ∈ cs.map Clause.canonical, c.hasComplement = false → c.maxAtom ≤ m := by
    intro cs
    simp
  rw [h.atomCount_le_iff (represents_withSource config source n),
    h'.atomCount_le_iff (represents_withSource config' source' n), hmap, hmap]
  exact and_congr_right fun _ => forall_congr' fun c => imp_congr_left (hsame c).symm

/-- Of the models of a clause of two atoms the first one denies the first atom. It is reported after
a decision, and also where the clause was added in two forms with a solve in between. -/
theorem solve_isExtreme_of_two_histories :
    let config := { Config.default with
      phaseSaving := { Config.default.phaseSaving with value := false } }
    let new := withSource config ⟨fun _ => 0, 0⟩ 2
    let calls : List Call := [.addClause [⟨1, true⟩, ⟨2, true⟩], .branch]
    let calls' : List Call := [.addClause [⟨2, true⟩, ⟨1, true⟩], .solve fun _ => .zero,
      .addClause [⟨1, true⟩, ⟨2, true⟩, ⟨2, true⟩]]
    let s := calls.foldl (fun s call => (s.perform call).2) new
    let t := calls'.foldl (fun s call => (s.perform call).2) new
    config.IsSteady false ∧ Reaches (fun t call => call.IsSound t) new calls s ∧
      Reaches (fun t call => call.IsSound t) new calls' t ∧
      SameClauses (accepted new calls) (accepted new calls') ∧
      (s.solve fun _ => .zero).1 = .satisfiable [⟨1, false⟩, ⟨2, true⟩] ∧
      (∃ v, literalsOf v = [⟨1, false⟩, ⟨2, true⟩] ∧
        IsLeast (models s.atomCount (accepted new calls)) v) ∧
      (t.solve fun _ => .zero).1 = .satisfiable [⟨1, false⟩, ⟨2, true⟩] := by
  intro config new calls calls' s t
  have hsteady : config.IsSteady false := ⟨rfl, by decide, by decide⟩
  have hr : Reaches (fun t call => call.IsSound t) new calls s :=
    (Reaches.refl.call trivial).call trivial
  have hr' : Reaches (fun t call => call.IsSound t) new calls' t :=
    ((Reaches.refl.call trivial).call trivial).call trivial
  have hsame : SameClauses (accepted new calls) (accepted new calls') := by
    have hone : (accepted new calls).map Clause.canonical = [[⟨1, true⟩, ⟨2, true⟩]] := by
      decide +kernel
    have htwo : (accepted new calls').map Clause.canonical
        = [[⟨1, true⟩, ⟨2, true⟩], [⟨1, true⟩, ⟨2, true⟩]] := by
      decide +kernel
    intro c
    simp [hone, htwo]
  obtain ⟨hmodel, hreport⟩ := solve_isExtreme_of_reaches config ⟨fun _ => 0, 0⟩ 2 hsteady hr
  have hsolve : (s.solve fun _ => .zero).1 = .satisfiable [⟨1, false⟩, ⟨2, true⟩] := by
    decide +kernel
  obtain ⟨v, hv, hleast⟩ := hmodel (fun _ => .zero) _ hsolve
  have hs : (s.solve fun _ => .zero).1 ≠ .timeUp := by decide +kernel
  have ht : (t.solve fun _ => .zero).1 ≠ .timeUp := by decide +kernel
  refine ⟨hsteady, hr, hr', hsame, hsolve, ⟨v, hv.symm, hleast⟩, ?_⟩
  rw [hreport config ⟨fun _ => 0, 0⟩ calls' t hsteady hr' hsame _ _ hs ht, hsolve]

end Search

end Clausal
