import Clausal.Proofs.Cnf
import Mathlib.Data.Finset.Dedup
import Mathlib.Data.List.Destutter

/-!
# Instances as sets of sets of literals

To sort the literals of a clause and to drop those that repeat their neighbour gives its canonical
form, which depends on the set of literals only. An instance stores the canonical forms of the
clauses it was given, so beside its atom count it is a set of sets of literals: nothing else is left
of the calls that made it.
-/

namespace Clausal

/-! ## Sorting and dropping repeats -/

namespace Ordered

variable {α : Type} {cmp : α → α → Ordering} {x y : α} {xs : List α}

variable (cmp) in
theorem isLE_total [Std.OrientedCmp cmp] (x y : α) :
    ((cmp x y).isLE || (cmp y x).isLE) = true := by
  have hswap : cmp y x = (cmp x y).swap := Std.OrientedCmp.eq_swap
  rw [hswap]
  cases cmp x y <;> rfl

variable [DecidableEq α]

theorem mem_destutter'_ne : y ∈ xs.destutter' (· ≠ ·) x ↔ y = x ∨ y ∈ xs := by
  induction xs generalizing x with
  | nil => simp
  | cons z xs ih =>
    by_cases h : x = z
    · rw [List.destutter'_cons_neg _ (not_not.mpr h), ih, h]
      simp
    · rw [List.destutter'_cons_pos _ h, List.mem_cons, ih, List.mem_cons]

variable [Std.LawfulEqCmp cmp] [Std.TransCmp cmp]

theorem increasing_destutter'_ne (h : (x :: xs).Pairwise fun y z => (cmp y z).isLE = true) :
    Increasing cmp (xs.destutter' (· ≠ ·) x) := by
  induction xs generalizing x with
  | nil => exact List.pairwise_singleton _ x
  | cons z xs ih =>
    obtain ⟨hx, hxs⟩ := List.pairwise_cons.mp h
    by_cases hxz : x = z
    · rw [List.destutter'_cons_neg _ (not_not.mpr hxz), hxz]
      exact ih hxs
    · have hlt : cmp x z = .lt := by
        have hle := hx z List.mem_cons_self
        cases hcmp : cmp x z with
        | lt => rfl
        | eq => exact absurd (Std.LawfulEqCmp.eq_of_compare hcmp) hxz
        | gt => simp [hcmp] at hle
      rw [List.destutter'_cons_pos _ hxz]
      refine List.pairwise_cons.mpr ⟨fun y hy => ?_, ih hxs⟩
      rcases mem_destutter'_ne.mp hy with rfl | hy
      · exact hlt
      · exact Std.TransCmp.lt_of_lt_of_isLE hlt ((List.pairwise_cons.mp hxs).1 y hy)

/-- A sorted list without the members that repeat their neighbour is the list of its members. -/
theorem destutter_ne_eq_ofList (h : xs.Pairwise fun y z => (cmp y z).isLE = true) :
    xs.destutter (· ≠ ·) = ofList cmp xs := by
  cases xs with
  | nil => rfl
  | cons x xs =>
    refine (increasing_destutter'_ne h).eq_of_mem_iff (increasing_ofList cmp _) fun y => ?_
    rw [mem_destutter'_ne, mem_ofList, List.mem_cons]

end Ordered

namespace Clause

variable {c d : Clause}

/-- The literals sorted, without those that repeat their neighbour. -/
def sorted (c : Clause) : Clause :=
  (c.mergeSort fun l m => (Literal.order l m).isLE).destutter (· ≠ ·)

theorem sorted_eq_canonical (c : Clause) : c.sorted = c.canonical := by
  have hsorted := List.pairwise_mergeSort (fun _ _ _ => Std.TransCmp.isLE_trans)
    (Ordered.isLE_total Literal.order) c
  rw [sorted, Ordered.destutter_ne_eq_ofList hsorted]
  refine (Ordered.increasing_ofList _ _).eq_of_mem_iff (increasing_canonical c) fun l => ?_
  rw [Ordered.mem_ofList, mem_canonical, List.mem_mergeSort]

/-- A canonical form stands for a set of literals. -/
theorem canonical_eq_iff : c.canonical = d.canonical ↔ c.toFinset = d.toFinset := by
  constructor
  · intro h
    ext l
    rw [List.mem_toFinset, List.mem_toFinset]
    exact mem_iff_of_canonical_eq h l
  · intro h
    refine (increasing_canonical c).eq_of_mem_iff (increasing_canonical d) fun l => ?_
    rw [mem_canonical, mem_canonical, ← List.mem_toFinset, h, List.mem_toFinset]

end Clause

namespace Cnf

variable {cnf cnf' : Cnf} {cs ds : List Clause} {c d : Clause} {edits : List Edit}

/-! ## The clauses given -/

/-- The clause that a call gives, unless it is refused. -/
def acceptedBy (cnf : Cnf) : Edit → List Clause
  | .add c =>
    match cnf.addClause c with
    | .ok _ => [c]
    | .error _ => []
  | .declare _ => []

/-- The clauses that calls in turn give and that are not refused. -/
def accepted (cnf : Cnf) : List Edit → List Clause
  | [] => []
  | e :: edits => cnf.acceptedBy e ++ accepted (cnf.edit e) edits

/-- The sets of literals of clauses. -/
def literalSets (cs : List Clause) : Finset (Finset Literal) := (cs.map List.toFinset).toFinset

theorem mem_literalSets {S : Finset Literal} :
    S ∈ literalSets cs ↔ ∃ c ∈ cs, c.toFinset = S := by
  simp [literalSets]

/-! ## What an instance holds -/

/-- The instance is well-formed and its clauses are those of a list, in canonical form. -/
structure Collects (cs : List Clause) (cnf : Cnf) : Prop where
  wellFormed : cnf.WellFormed
  mem_clauses : ∀ d, d ∈ cnf.clauses ↔ ∃ c ∈ cs, c.canonical = d

theorem collects_new (n : Nat) : Collects [] (new n) where
  wellFormed := wellFormed_new n
  mem_clauses d := by simp [new]

theorem addClause_of_not_inRange (cnf : Cnf) (h : ¬ InRange c) :
    ∃ fault, cnf.addClause c = .error fault := by
  cases hfault : fault? c with
  | none => exact absurd (fault?_eq_none_iff.mp hfault) h
  | some fault => exact ⟨fault, by rw [addClause, hfault]⟩

theorem Collects.edit (h : Collects cs cnf) (e : Edit) :
    Collects (cs ++ cnf.acceptedBy e) (cnf.edit e) := by
  refine ⟨h.wellFormed.edit e, fun d => ?_⟩
  cases e with
  | add c =>
    by_cases hc : InRange c
    · simp only [Cnf.edit, acceptedBy, addClause_of_inRange cnf hc]
      rw [mem_clauses_insert, h.mem_clauses]
      constructor
      · intro hd
        rcases hd with rfl | ⟨e, he, rfl⟩
        · exact ⟨c, by simp, rfl⟩
        · exact ⟨e, List.mem_append_left _ he, rfl⟩
      · intro hd
        obtain ⟨e, he, rfl⟩ := hd
        rcases List.mem_append.mp he with he | he
        · exact .inr ⟨e, he, rfl⟩
        · exact .inl (by rw [List.mem_singleton.mp he])
    · obtain ⟨fault, hfault⟩ := addClause_of_not_inRange cnf hc
      simp only [Cnf.edit, acceptedBy, hfault, List.append_nil]
      exact h.mem_clauses d
  | declare n =>
    rw [acceptedBy, List.append_nil]
    exact h.mem_clauses d

theorem Collects.editAll (h : Collects cs cnf) (edits : List Edit) :
    Collects (cs ++ cnf.accepted edits) (cnf.editAll edits) := by
  induction edits generalizing cs cnf with
  | nil => rwa [accepted, List.append_nil]
  | cons e edits ih =>
    rw [accepted, ← List.append_assoc]
    exact ih (h.edit e)

theorem collects_editAll_new (n : Nat) (edits : List Edit) :
    Collects ((new n).accepted edits) ((new n).editAll edits) :=
  (collects_new n).editAll edits

namespace Collects

/-- A clause is new if no clause given before has its set of literals. -/
theorem isNew_iff (h : Collects cs cnf) :
    (!cnf.clauses.contains c.canonical) = true ↔ ∀ d ∈ cs, d.toFinset ≠ c.toFinset := by
  have hmem : c.canonical ∈ cnf.clauses ↔ ∃ d ∈ cs, d.toFinset = c.toFinset := by
    rw [h.mem_clauses]
    simp only [Clause.canonical_eq_iff]
  rw [Bool.not_eq_true', ← Bool.not_eq_true, List.contains_iff_mem, hmem]
  simp

theorem satisfiedBy_iff (h : Collects cs cnf) (v : Nat → Bool) :
    cnf.satisfiedBy v = true ↔ Clause.SatisfiedAll v cs := by
  rw [Cnf.satisfiedBy_iff]
  constructor
  · intro hv c hc
    rw [← Clause.satisfiedBy_canonical]
    exact hv _ ((h.mem_clauses _).mpr ⟨c, hc, rfl⟩)
  · intro hv d hd
    obtain ⟨c, hc, rfl⟩ := (h.mem_clauses d).mp hd
    rw [Clause.satisfiedBy_canonical]
    exact hv c hc

theorem literalSets_clauses (h : Collects cs cnf) : literalSets cnf.clauses = literalSets cs := by
  have hset : ∀ c : Clause, c.canonical.toFinset = c.toFinset := fun c =>
    Clause.canonical_eq_iff.mp (Clause.canonical_canonical c)
  ext S
  rw [mem_literalSets, mem_literalSets]
  constructor
  · intro hS
    obtain ⟨d, hd, rfl⟩ := hS
    obtain ⟨c, hc, rfl⟩ := (h.mem_clauses d).mp hd
    exact ⟨c, hc, (hset c).symm⟩
  · intro hS
    obtain ⟨c, hc, rfl⟩ := hS
    exact ⟨c.canonical, (h.mem_clauses _).mpr ⟨c, hc, rfl⟩, hset c⟩

end Collects

/-- Canonical clauses with the same set of literals are the same. -/
theorem WellFormed.mem_of_literalSets (h : cnf.WellFormed) (h' : cnf'.WellFormed)
    (hsets : literalSets cnf.clauses = literalSets cnf'.clauses) (hd : d ∈ cnf.clauses) :
    d ∈ cnf'.clauses := by
  have hmem : d.toFinset ∈ literalSets cnf'.clauses := by
    rw [← hsets]
    exact mem_literalSets.mpr ⟨d, hd, rfl⟩
  obtain ⟨e, he, hed⟩ := mem_literalSets.mp hmem
  have heq := Clause.canonical_eq_iff.mpr hed
  rw [h'.canonical e he, h.canonical d hd] at heq
  rwa [← heq]

theorem Collects.eq_iff (h : Collects cs cnf) (h' : Collects ds cnf') :
    cnf = cnf' ↔ cnf.atomCount = cnf'.atomCount ∧ literalSets cs = literalSets ds := by
  rw [← h.literalSets_clauses, ← h'.literalSets_clauses]
  constructor
  · intro heq
    exact ⟨congrArg atomCount heq, congrArg (literalSets ·.clauses) heq⟩
  · intro hboth
    obtain ⟨hcount, hsets⟩ := hboth
    have hclauses : cnf.clauses = cnf'.clauses :=
      h.wellFormed.increasing.eq_of_mem_iff h'.wellFormed.increasing fun _ =>
        ⟨h.wellFormed.mem_of_literalSets h'.wellFormed hsets,
          h'.wellFormed.mem_of_literalSets h.wellFormed hsets.symm⟩
    cases cnf
    cases cnf'
    exact Cnf.mk.injEq .. ▸ ⟨hclauses, hcount⟩

/-! ## Every history -/

/-- Whatever calls are made on a new instance, it stores the clauses that were not refused, each
with its literals sorted and without repeats, and its atom count bounds the atoms of them all. A
clause is answered to be new when no earlier one has the same literals, the valuations that satisfy
the instance are those of the clauses as they were given, and instances are equal when their atom
counts and the sets of literals given to them are. -/
theorem editAll_collects_literalSets (n : Nat) (edits : List Edit) :
    let cnf := (new n).editAll edits
    let cs := (new n).accepted edits
    (∀ d ∈ cnf.clauses, Ordered.Increasing Literal.order d ∧
        ∀ l ∈ d, 0 < l.atom ∧ l.atom ≤ cnf.atomCount) ∧
      cnf.atomCount ≤ atomMax ∧
      (∀ d, d ∈ cnf.clauses ↔ ∃ c ∈ cs, c.sorted = d) ∧
      (∀ c, match cnf.addClause c with
        | .ok (isNew, cnf') => InRange c ∧ cnf' = cnf.edit (.add c) ∧
            (isNew = true ↔ ∀ d ∈ cs, d.toFinset ≠ c.toFinset)
        | .error _ => ¬ InRange c ∧ cnf.edit (.add c) = cnf) ∧
      (∀ v, cnf.satisfiedBy v = true ↔ ∀ c ∈ cs, ∃ l ∈ c, l.trueUnder v = true) ∧
      ∀ n' edits', cnf = (new n').editAll edits' ↔
        cnf.atomCount = ((new n').editAll edits').atomCount ∧
          literalSets cs = literalSets ((new n').accepted edits') := by
  intro cnf cs
  have h : Collects cs cnf := collects_editAll_new n edits
  refine ⟨fun d hd => ⟨?_, fun l hl => ⟨?_, ?_⟩⟩, h.wellFormed.atomCount_le, fun d => ?_,
    fun c => ?_, fun v => ?_, fun n' edits' => h.eq_iff (collects_editAll_new n' edits')⟩
  · rw [← h.wellFormed.canonical d hd]
    exact Clause.increasing_canonical d
  · exact (h.wellFormed.inRange d hd l hl).1
  · exact Clause.maxAtom_le_iff.mp (maxAtom_le_iff.mp h.wellFormed.maxAtom_le d hd) l hl
  · simp only [Clause.sorted_eq_canonical]
    exact h.mem_clauses d
  · by_cases hc : InRange c
    · rw [Cnf.edit, addClause_of_inRange cnf hc]
      exact ⟨hc, rfl, h.isNew_iff⟩
    · obtain ⟨fault, hfault⟩ := addClause_of_not_inRange cnf hc
      rw [Cnf.edit, hfault]
      exact ⟨hc, rfl⟩
  · rw [h.satisfiedBy_iff]
    simp only [Clause.SatisfiedAll, Clause.satisfiedBy_iff]

/-- A clause with a zero is refused, one that is given again in another form is not new, and the
atom count stays above the atoms. Another history with the same sets of literals makes the same
instance. -/
theorem editAll_collects_literalSets_reordered :
    let edits : List Edit := [.add [⟨1, true⟩, ⟨2, false⟩], .add [⟨1, true⟩, ⟨0, false⟩],
      .add [⟨2, false⟩, ⟨1, true⟩, ⟨1, true⟩], .add [⟨3, true⟩], .declare 1]
    let edits' : List Edit := [.add [⟨3, true⟩], .add [⟨2, false⟩, ⟨1, true⟩]]
    (new 2).accepted edits
        = [[⟨1, true⟩, ⟨2, false⟩], [⟨2, false⟩, ⟨1, true⟩, ⟨1, true⟩], [⟨3, true⟩]] ∧
      literalSets ((new 2).accepted edits) = literalSets ((new 0).accepted edits') ∧
      ((new 2).editAll edits).atomCount = 3 ∧ (new 2).editAll edits = (new 0).editAll edits' := by
  intro edits edits'
  have hsets : literalSets ((new 2).accepted edits) = literalSets ((new 0).accepted edits') := by
    decide
  have hcount : ((new 2).editAll edits).atomCount = ((new 0).editAll edits').atomCount := by
    decide
  obtain ⟨-, -, -, -, -, heq⟩ := editAll_collects_literalSets 2 edits
  exact ⟨by decide, hsets, by decide, (heq 0 edits').mpr ⟨hcount, hsets⟩⟩

end Cnf

end Clausal
