import Clausal.Proofs.Search.Frame
import Clausal.Proofs.Search.Watching

/-!
# No model is left behind

`Searching` is what holds at the start of every pass of a solve. Its last part says that the search
leaves no model behind: a valuation of the clauses either follows the open levels, or departs from
them at one whose other side is still to come. A conflict rules out the first, so backtracking goes
on to where the valuations that are left have departed; when it finds no such level, none is left.
With every atom valued and no conflict, the values are a model.
-/

namespace Clausal.Search

variable {s t u : Search} {cs : List Clause} {v : Nat → Bool} {level : Level}
  {above below : List Level}

/-! ## Where the models are -/

/-- A valuation makes the decisions of all levels true. -/
def Follows (v : Nat → Bool) (levels : List Level) : Prop :=
  ∀ level ∈ levels, level.decision.trueUnder v = true

/-- A valuation follows the levels up to one that has not been turned round, whose decision it makes
false. -/
def Departs (v : Nat → Bool) (levels : List Level) : Prop :=
  ∃ above level below, levels = above ++ level :: below ∧ level.flipped = false ∧
    level.decision.trueUnder v = false ∧ Follows v below

/-- A valuation is still to come: it follows the levels or departs from them at one that has not been
turned round. -/
def Ahead (v : Nat → Bool) (levels : List Level) : Prop := Follows v levels ∨ Departs v levels

/-- What holds of a state at the start of a pass. -/
structure Searching (cs : List Clause) (s : Search) : Prop where
  represents : Represents cs s
  consistent : s.inconsistent = false
  settled : s.Settled
  bounded : s.head ≤ s.assignment.trail.size
  covered : ∀ v, Clause.SatisfiedAll v cs → Follows v s.levels ∨ Departs v s.levels

theorem Departs.cons {levels : List Level} (h : Departs v levels) (level : Level) :
    Departs v (level :: levels) := by
  obtain ⟨above, b, below, rfl, hrest⟩ := h
  exact ⟨level :: above, b, below, rfl, hrest⟩

theorem follows_cons : Follows v (level :: below) ↔
    level.decision.trueUnder v = true ∧ Follows v below :=
  List.forall_mem_cons

theorem departs_cons : Departs v (level :: below) ↔
    level.flipped = false ∧ level.decision.trueUnder v = false ∧ Follows v below ∨
      Departs v below := by
  constructor
  · rintro ⟨above, other, rest, heq, hf, hv, hrest⟩
    cases above with
    | nil =>
      obtain ⟨rfl, rfl⟩ := List.cons.inj heq
      exact .inl ⟨hf, hv, hrest⟩
    | cons top above =>
      obtain ⟨-, rfl⟩ := List.cons.inj heq
      exact .inr ⟨above, other, rest, rfl, hf, hv, hrest⟩
  · rintro (⟨hf, hv, hbelow⟩ | hdep)
    · exact ⟨[], level, below, rfl, hf, hv, hbelow⟩
    · exact hdep.cons level

/-- No valuation departs at a level that has been turned round. -/
theorem departs_append_iff (habove : ∀ a ∈ above, a.flipped = true) :
    Departs v (above ++ below) ↔ Departs v below := by
  induction above with
  | nil => rfl
  | cons top above ih =>
    obtain ⟨htop, habove⟩ := List.forall_mem_cons.mp habove
    rw [List.cons_append, departs_cons, ih habove, htop]
    simp only [Bool.true_eq_false, false_and, false_or]

theorem not_departs {levels : List Level} (hall : ∀ level ∈ levels, level.flipped = true) :
    ¬ Departs v levels := by
  rintro ⟨above, level, below, rfl, hf, -⟩
  rw [hall level (by simp)] at hf
  cases hf

/-- A level that is opened leaves what is ahead as it was. -/
theorem ahead_cons_iff (hlevel : level.flipped = false) :
    Ahead v (level :: below) ↔ Ahead v below := by
  rw [Ahead, Ahead, follows_cons, departs_cons]
  cases hv : level.decision.trueUnder v with
  | true => simp only [true_and, Bool.true_eq_false, false_and, and_false, false_or]
  | false => simp only [Bool.false_eq_true, false_and, false_or, hlevel, true_and]

/-- Once a level is turned round, what is ahead are the valuations that departed from the levels
before. -/
theorem ahead_turned_iff (habove : ∀ a ∈ above, a.flipped = true) (hlevel : level.flipped = false)
    (start : Nat) :
    Ahead v (⟨start, -level.decision, true⟩ :: below) ↔ Departs v (above ++ level :: below) := by
  rw [departs_append_iff habove, departs_cons, Ahead, follows_cons, departs_cons,
    Literal.trueUnder_neg]
  simp only [Bool.not_eq_true', Bool.true_eq_false, false_and, false_or, hlevel, true_and]

theorem Follows.of_levels_eq_nil (hl : s.levels = []) : Follows v s.levels := by
  simp [Follows, hl]

theorem Follows.not_departs (h : Follows v s.levels) : ¬ Departs v s.levels := by
  intro hdep
  obtain ⟨above, level, below, hlevels, -, hfalse, -⟩ := hdep
  rw [h level (by simp [hlevels])] at hfalse
  cases hfalse

/-- A valuation of the clauses that follows the levels makes the whole trail true. -/
theorem Represents.trueUnder_of_follows (h : Represents cs s) (hv : Clause.SatisfiedAll v cs)
    (hfollow : Follows v s.levels) {l : Literal} (hl : l ∈ s.assignment.trail) :
    l.trueUnder v = true := by
  obtain ⟨i, hi⟩ := Array.mem_iff_getElem?.mp hl
  exact h.trail_true hv (i + 1) (fun level hlevel _ => hfollow level hlevel) i
    (Nat.lt_succ_self i) l hi

theorem Represents.eq_of_value (h : Represents cs s) (hv : Clause.SatisfiedAll v cs)
    (hfollow : Follows v s.levels) {i : Nat} {y : Bool} (hy : s.assignment.value i = some y) :
    v i = y := by
  have hmem := (h.wellFormed.assignment.mem_trail ⟨i, y⟩).mpr hy
  exact Literal.trueUnder_iff.mp (h.trueUnder_of_follows hv hfollow hmem)

namespace Searching

theorem of_eq (h : Searching cs s) (ha : t.assignment = s.assignment) (hs : t.store = s.store)
    (hl : t.levels = s.levels) (hi : t.inconsistent = s.inconsistent) (hh : t.head = s.head) :
    Searching cs t where
  represents := h.represents.of_eq ha hs hl hi
  consistent := hi.trans h.consistent
  settled := h.settled.of_eq ha hs hl hh
  bounded := by
    rw [ha, hh]
    exact h.bounded
  covered := by
    rw [hl]
    exact h.covered

/-- A solve starts with no level open, which every valuation follows. -/
theorem restart (h : Represents cs s) (hi : s.inconsistent = false) :
    Searching cs { s.backjump 0 with head := 0 } := by
  have hback := h.backjump 0
  have hlevels := levels_backjump_zero s
  have hkeep := (keeps_backjump 0 s).inconsistent
  refine ⟨hback.of_eq rfl rfl rfl rfl, hkeep.trans hi, ?_, Nat.zero_le _, fun v _ => .inl ?_⟩
  · exact .of_head_eq_zero (hback.wellFormed.of_eq rfl rfl rfl) hlevels rfl
  · exact .of_levels_eq_nil hlevels

theorem propagate (h : Searching cs s) : Searching cs s.propagate.2 := by
  obtain ⟨hsettled, hbounded, -⟩ := h.settled.propagate h.bounded
  obtain ⟨-, hext⟩ := wellFormed_extends_propagate h.represents.wellFormed
  refine ⟨h.represents.propagate, hext.inconsistent.trans h.consistent, hsettled, hbounded, ?_⟩
  rw [hext.levels]
  exact h.covered

/-! ## Conflicts -/

/-- With a clause false, a valuation of the clauses does not follow the levels. -/
theorem departs (h : Searching cs s) {key : Nat} {c : StoredClause}
    (hc : s.store.clauses[key]? = some c) (hf : IsFalse s.assignment c)
    (hv : Clause.SatisfiedAll v cs) : Departs v s.levels := by
  rcases h.covered v hv with hfollow | hdep
  · exfalso
    obtain ⟨l, hl, htrue⟩ := Clause.satisfiedBy_iff.mp ((h.represents.sound v hv).2 key c hc)
    have hneg := h.represents.trueUnder_of_follows hv hfollow (hf l hl)
    rw [Literal.trueUnder_neg, htrue] at hneg
    cases hneg
  · exact hdep

theorem backtracked (h : Searching cs s)
    (hd : ∀ v, Clause.SatisfiedAll v cs → Departs v s.levels) (hb : Backtracked s true t) :
    Searching cs t := by
  obtain ⟨hsettled, hbounded⟩ := h.settled.backtracked hb
  have hconsistent := hb.keeps.inconsistent.trans h.consistent
  refine ⟨h.represents.backtracked hb, hconsistent, hsettled, hbounded, fun v hv => ?_⟩
  have hdep := hd v hv
  cases hb with
  | @turned above below level hl habove hlevel =>
    rw [hl] at hdep
    exact (ahead_turned_iff habove hlevel _).mpr hdep

/-- When no level is left to turn round there is no model. -/
theorem unsatisfiable (hd : ∀ v, Clause.SatisfiedAll v cs → Departs v s.levels)
    (hb : Backtracked s false t) (v : Nat → Bool) : ¬ Clause.SatisfiedAll v cs := by
  intro hv
  cases hb with
  | exhausted hall => exact not_departs hall (hd v hv)

/-! ## Decisions -/

theorem branched {l : Literal} (h : Searching cs s) (hh : s.head = s.assignment.trail.size)
    (hb : Branched s (some l) t) : Searching cs t := by
  have hrep := h.represents.branched hb
  cases hb with
  | @opened _ source counters ho h0 =>
    have hs : Searching cs { s with source, counters } := h.of_eq rfl rfl rfl rfl rfl
    refine ⟨hrep, h.consistent, hs.settled.openLevel hh ho h0 false, ?_, ?_⟩
    · exact Nat.le_trans h.bounded (Assignment.size_trail_le_assign _ _)
    · intro v hv
      exact (ahead_cons_iff rfl).mpr (h.covered v hv)

end Searching

/-! ## Models -/

/-- The values of an assignment as a valuation. -/
def Assignment.valuation (a : Assignment) (index : Nat) : Bool := (a.value index).getD false

/-- The valuation that literals stand for: an atom without a literal among them is false. -/
def reading (ls : List Literal) (index : Nat) : Bool := decide (⟨index, true⟩ ∈ ls)

theorem Assignment.Consistent.trueUnder_valuation {a : Assignment} {l : Literal}
    (h : a.Consistent) (hl : l ∈ a.trail) : l.trueUnder a.valuation = true := by
  simp [Literal.trueUnder, valuation, (h.mem_trail l).mp hl]

theorem reading_literals {a : Assignment} (h : a.Consistent) :
    reading a.literals = a.valuation := by
  funext index
  rw [Bool.eq_iff_iff]
  simp only [reading, decide_eq_true_eq]
  simp only [Assignment.literals, Assignment.valuation, List.mem_map, List.mem_range'_1,
    Literal.mk.injEq]
  constructor
  · intro hmem
    obtain ⟨i, -, rfl, hv⟩ := hmem
    exact hv
  · intro hv
    have hsome : a.value index = some true := by
      cases hvalue : a.value index with
      | none => simp [hvalue] at hv
      | some b => simpa [hvalue] using hv
    have hr := h.range_of_mem ((h.mem_trail ⟨index, true⟩).mpr hsome)
    simp only at hr
    exact ⟨index, by omega, rfl, hv⟩

theorem map_atom_literals (a : Assignment) :
    a.literals.map Literal.atom = List.range' 1 a.atomCount := by
  simp [Assignment.literals, Function.comp_def]

/-- With every atom valued and the trail propagated to the end, the values are a model. -/
theorem Searching.satisfiedAll_valuation (h : Searching cs s)
    (hh : s.head = s.assignment.trail.size) (ho : s.assignment.openAtoms = []) :
    Clause.SatisfiedAll s.assignment.valuation cs := by
  have hw := h.represents.wellFormed
  have ha := hw.assignment
  refine h.represents.complete _ h.consistent (fun key c hc => ?_) fun i l hl _ =>
    ha.trueUnder_valuation (Array.mem_of_getElem? hl)
  have hr := (hw.store.proper key c hc).range c.first (by simp [StoredClause.literals])
  obtain ⟨b, hb⟩ := Assignment.exists_value_of_openAtoms_eq_nil ho hr.1 hr.2
  by_cases hpol : b = c.first.polarity
  · subst hpol
    exact Clause.satisfiedBy_of_mem (by simp [StoredClause.literals])
      (ha.trueUnder_valuation ((ha.mem_trail c.first).mpr hb))
  -- the first literal is false, so the second is true
  · have hneg : -c.first ∈ s.assignment.trail := by
      rw [ha.mem_trail, Literal.atom_neg, Literal.polarity_neg, hb]
      cases b <;> cases hp : c.first.polarity <;> simp [hp] at hpol ⊢
    have hsecond := h.settled.mem_of_pair hh hc (.inl ⟨rfl, rfl⟩) hneg
    exact Clause.satisfiedBy_of_mem (by simp [StoredClause.literals])
      (ha.trueUnder_valuation hsecond)

end Clausal.Search
