import Clausal.Cnf
import Clausal.Proofs.Clause

/-!
# Clauses of an instance

A clause whose atoms are all in range is never refused. Adding clauses one by one is then an
insertion of their canonical forms, and the instance is satisfied by the valuations of the clauses.
-/

namespace Clausal.Cnf

variable {v : Nat → Bool} {c d : Clause} {cs : List Clause} {cnf : Cnf}

/-- Every literal is one of an atom that may be handed out. -/
def InRange (c : Clause) : Prop := ∀ l ∈ c, 0 < l.atom ∧ l.atom ≤ atomMax

theorem fault?_eq_none_iff : fault? c = none ↔ InRange c := by
  induction c with
  | nil => simp [fault?, InRange]
  | cons l c ih =>
    have hcons : InRange (l :: c) ↔ (0 < l.atom ∧ l.atom ≤ atomMax) ∧ InRange c := by
      simp [InRange]
    rw [hcons, ← ih, fault?]
    by_cases h0 : l.atom = 0
    · simp [h0]
    · by_cases hmax : l.atom > atomMax
      · simp only [h0, hmax, ↓reduceIte, reduceCtorEq, false_iff, not_and]
        omega
      · simp only [h0, hmax, ↓reduceIte]
        exact ⟨fun h => ⟨by omega, h⟩, fun h => h.2⟩

/-! ## Insertion -/

/-- The instance with a clause put in its place. -/
def insert (cnf : Cnf) (c : Clause) : Cnf :=
  ⟨Ordered.insert clauseOrder c.canonical cnf.clauses, max cnf.atomCount c.maxAtom⟩

def insertAll (cnf : Cnf) (cs : List Clause) : Cnf := cs.foldl insert cnf

theorem addClause_of_inRange (cnf : Cnf) (h : InRange c) :
    cnf.addClause c = .ok (!cnf.clauses.contains c.canonical, cnf.insert c) := by
  unfold addClause
  rw [fault?_eq_none_iff.mpr h]
  rfl

theorem insertAll_cons (cnf : Cnf) (c : Clause) (cs : List Clause) :
    cnf.insertAll (c :: cs) = (cnf.insert c).insertAll cs := rfl

theorem insertAll_append (cnf : Cnf) (cs ds : List Clause) :
    cnf.insertAll (cs ++ ds) = (cnf.insertAll cs).insertAll ds :=
  List.foldl_append

theorem mem_clauses_insert : d ∈ (cnf.insert c).clauses ↔ d = c.canonical ∨ d ∈ cnf.clauses :=
  Ordered.mem_insert clauseOrder

theorem mem_clauses_insertAll :
    d ∈ (cnf.insertAll cs).clauses ↔ d ∈ cnf.clauses ∨ ∃ c ∈ cs, c.canonical = d := by
  induction cs generalizing cnf with
  | nil => simp [insertAll]
  | cons c cs ih =>
    rw [insertAll_cons, ih, mem_clauses_insert]
    constructor
    · intro hmem
      rcases hmem with (rfl | hd) | ⟨e, he, hed⟩
      · exact .inr ⟨c, List.mem_cons_self, rfl⟩
      · exact .inl hd
      · exact .inr ⟨e, List.mem_cons_of_mem _ he, hed⟩
    · intro hmem
      rcases hmem with hd | ⟨e, he, hed⟩
      · exact .inl (.inr hd)
      · rcases List.mem_cons.mp he with rfl | he
        · exact .inl (.inl hed.symm)
        · exact .inr ⟨e, he, hed⟩

theorem mem_clauses_empty_insertAll :
    d ∈ (empty.insertAll cs).clauses ↔ ∃ c ∈ cs, c.canonical = d := by
  rw [mem_clauses_insertAll]
  exact ⟨fun h => h.resolve_left (by simp [empty, new]), .inr⟩

theorem increasing_insertAll (h : Ordered.Increasing clauseOrder cnf.clauses) (cs : List Clause) :
    Ordered.Increasing clauseOrder (cnf.insertAll cs).clauses := by
  induction cs generalizing cnf with
  | nil => exact h
  | cons c cs ih => exact @ih (cnf.insert c) (h.insert _ _)

/-! ## Satisfaction -/

theorem satisfiedBy_iff : cnf.satisfiedBy v = true ↔ Clause.SatisfiedAll v cnf.clauses := by
  simp [satisfiedBy, Clause.SatisfiedAll]

/-! ## The atom count -/

theorem maxAtom_le_iff {n : Nat} : cnf.maxAtom ≤ n ↔ ∀ c ∈ cnf.clauses, c.maxAtom ≤ n := by
  unfold maxAtom
  induction cnf.clauses with
  | nil => simp
  | cons c cs ih =>
    rw [List.map_cons, List.foldr_cons, Nat.max_le, ih, List.forall_mem_cons]

theorem lt_maxAtom_iff {n : Nat} : n < cnf.maxAtom ↔ ∃ c ∈ cnf.clauses, n < c.maxAtom := by
  rw [← Nat.not_le, maxAtom_le_iff]
  simp

theorem maxAtom_insert (cnf : Cnf) (c : Clause) :
    (cnf.insert c).maxAtom = max cnf.maxAtom c.maxAtom := by
  have hle : ∀ n, (cnf.insert c).maxAtom ≤ n ↔ max cnf.maxAtom c.maxAtom ≤ n := by
    intro n
    rw [Nat.max_le, maxAtom_le_iff, maxAtom_le_iff]
    simp [mem_clauses_insert, and_comm]
  exact Nat.le_antisymm ((hle _).mpr (Nat.le_refl _)) ((hle _).mp (Nat.le_refl _))

theorem atomCount_insertAll_of_le (h : ∀ c ∈ cs, c.maxAtom ≤ cnf.atomCount) :
    (cnf.insertAll cs).atomCount = cnf.atomCount := by
  induction cs generalizing cnf with
  | nil => rfl
  | cons c cs ih =>
    obtain ⟨hc, hcs⟩ := List.forall_mem_cons.mp h
    have hinsert : (cnf.insert c).atomCount = cnf.atomCount := Nat.max_eq_left hc
    rw [insertAll_cons, @ih (cnf.insert c) (by rwa [hinsert]), hinsert]

theorem atomCount_declareAtomCount {n : Nat} (hn : n ≤ atomMax)
    (h : ∀ c ∈ cnf.clauses, c.maxAtom ≤ n) : (cnf.declareAtomCount n).atomCount = n := by
  have hmax := maxAtom_le_iff.mpr h
  simp only [declareAtomCount]
  omega

/-! ## Edits -/

/-- A call that may change an instance. -/
inductive Edit where
  | add (c : Clause)
  | declare (atomCount : Nat)

/-- The instance after a call. A refused clause leaves it as it was. -/
def edit (cnf : Cnf) : Edit → Cnf
  | .add c =>
    match cnf.addClause c with
    | .ok (_, cnf') => cnf'
    | .error _ => cnf
  | .declare atomCount => cnf.declareAtomCount atomCount

def editAll (cnf : Cnf) (edits : List Edit) : Cnf := edits.foldl edit cnf

/-- What every call keeps of an instance. -/
structure WellFormed (cnf : Cnf) : Prop where
  increasing : Ordered.Increasing clauseOrder cnf.clauses
  canonical : ∀ c ∈ cnf.clauses, c.canonical = c
  inRange : ∀ c ∈ cnf.clauses, InRange c
  maxAtom_le : cnf.maxAtom ≤ cnf.atomCount
  atomCount_le : cnf.atomCount ≤ atomMax

theorem wellFormed_new (n : Nat) : (new n).WellFormed where
  increasing := List.Pairwise.nil
  canonical _ hc := absurd hc List.not_mem_nil
  inRange _ hc := absurd hc List.not_mem_nil
  maxAtom_le := Nat.zero_le _
  atomCount_le := Nat.min_le_right n atomMax

theorem WellFormed.insert (h : cnf.WellFormed) (hc : InRange c) : (cnf.insert c).WellFormed where
  increasing := h.increasing.insert _ _
  canonical d hd := by
    rcases mem_clauses_insert.mp hd with rfl | hd
    · exact Clause.canonical_canonical c
    · exact h.canonical d hd
  inRange d hd := by
    rcases mem_clauses_insert.mp hd with rfl | hd
    · exact fun l hl => hc l (Clause.mem_canonical.mp hl)
    · exact h.inRange d hd
  maxAtom_le := by
    rw [maxAtom_insert]
    exact Nat.max_le.mpr
      ⟨Nat.le_trans h.maxAtom_le (Nat.le_max_left _ _), Nat.le_max_right _ _⟩
  atomCount_le := Nat.max_le.mpr ⟨h.atomCount_le, Clause.maxAtom_le fun l hl => (hc l hl).2⟩

theorem WellFormed.declareAtomCount (h : cnf.WellFormed) (n : Nat) :
    (cnf.declareAtomCount n).WellFormed where
  increasing := h.increasing
  canonical := h.canonical
  inRange := h.inRange
  maxAtom_le := Nat.le_max_right _ _
  atomCount_le :=
    Nat.max_le.mpr ⟨Nat.min_le_right n atomMax, Nat.le_trans h.maxAtom_le h.atomCount_le⟩

theorem WellFormed.edit (h : cnf.WellFormed) (e : Edit) : (cnf.edit e).WellFormed := by
  cases e with
  | add c =>
    cases hfault : fault? c with
    | none =>
      have hc := fault?_eq_none_iff.mp hfault
      simp only [Cnf.edit, addClause_of_inRange cnf hc]
      exact h.insert hc
    | some fault =>
      simp only [Cnf.edit, addClause, hfault]
      exact h
  | declare n => exact h.declareAtomCount n

theorem WellFormed.editAll (h : cnf.WellFormed) (edits : List Edit) :
    (cnf.editAll edits).WellFormed := by
  induction edits generalizing cnf with
  | nil => exact h
  | cons e edits ih => exact ih (h.edit e)

/-- A call adds one clause at most. -/
theorem clauseCount_edit_le (cnf : Cnf) (e : Edit) :
    (cnf.edit e).clauseCount ≤ cnf.clauseCount + 1 := by
  cases e with
  | add c =>
    cases hfault : fault? c with
    | none =>
      simp only [edit, addClause_of_inRange cnf (fault?_eq_none_iff.mp hfault)]
      exact Ordered.length_insert_le clauseOrder _ _
    | some fault =>
      simp only [edit, addClause, hfault]
      exact Nat.le_succ _
  | declare n => exact Nat.le_succ _

theorem clauseCount_editAll_le (cnf : Cnf) (edits : List Edit) :
    (cnf.editAll edits).clauseCount ≤ cnf.clauseCount + edits.length := by
  induction edits generalizing cnf with
  | nil => exact Nat.le_refl _
  | cons e edits ih =>
    have hedit := cnf.clauseCount_edit_le e
    have hrest := ih (cnf.edit e)
    rw [List.length_cons]
    change (editAll (cnf.edit e) edits).clauseCount ≤ _
    omega

end Clausal.Cnf
