import Clausal.Clause

/-!
# Clauses and valuations

A valuation satisfies a list of clauses when each has a literal that it makes true. A clause is
proper when its literals have distinct atoms; the canonical form of a clause is proper unless the
clause is a tautology, in which case every valuation satisfies it.
-/

namespace Clausal

namespace Clause

variable {v : Nat → Bool} {c d : Clause}

theorem satisfiedBy_iff : c.satisfiedBy v = true ↔ ∃ l ∈ c, l.trueUnder v = true := by
  simp [satisfiedBy]

theorem satisfiedBy_of_mem {l : Literal} (hl : l ∈ c) (ht : l.trueUnder v = true) :
    c.satisfiedBy v = true :=
  satisfiedBy_iff.mpr ⟨l, hl, ht⟩

theorem satisfiedBy_congr_mem (h : ∀ l, l ∈ d ↔ l ∈ c) :
    d.satisfiedBy v = c.satisfiedBy v := by
  rw [Bool.eq_iff_iff, satisfiedBy_iff, satisfiedBy_iff]
  simp [h]

theorem satisfiedBy_perm (h : d.Perm c) : d.satisfiedBy v = c.satisfiedBy v :=
  satisfiedBy_congr_mem fun _ => h.mem_iff

/-- Satisfaction looks at the atoms of the clause only. -/
theorem satisfiedBy_congr {w : Nat → Bool} (h : ∀ l ∈ c, v l.atom = w l.atom) :
    c.satisfiedBy v = c.satisfiedBy w := by
  rw [Bool.eq_iff_iff, satisfiedBy_iff, satisfiedBy_iff]
  constructor
  · intro hsat
    obtain ⟨l, hl, ht⟩ := hsat
    exact ⟨l, hl, by rwa [Literal.trueUnder, ← h l hl]⟩
  · intro hsat
    obtain ⟨l, hl, ht⟩ := hsat
    exact ⟨l, hl, by rwa [Literal.trueUnder, h l hl]⟩

/-- The valuation satisfies every clause of the list. -/
def SatisfiedAll (v : Nat → Bool) (cs : List Clause) : Prop := ∀ c ∈ cs, c.satisfiedBy v = true

theorem satisfiedAll_append {cs ds : List Clause} :
    SatisfiedAll v (cs ++ ds) ↔ SatisfiedAll v cs ∧ SatisfiedAll v ds := by
  simp only [SatisfiedAll, List.mem_append]
  constructor
  · intro h
    exact ⟨fun c hc => h c (.inl hc), fun c hc => h c (.inr hc)⟩
  · intro hboth c hc
    rcases hc with hc | hc
    · exact hboth.1 c hc
    · exact hboth.2 c hc

/-- The literals have distinct atoms, and these are among `1, …, n`. -/
structure Proper (n : Nat) (c : Clause) : Prop where
  nodup : (c.map Literal.atom).Nodup
  range : ∀ l ∈ c, 0 < l.atom ∧ l.atom ≤ n

theorem Proper.perm {n : Nat} (h : c.Proper n) (hp : d.Perm c) : d.Proper n where
  nodup := (hp.map _).nodup_iff.mpr h.nodup
  range l hl := h.range l (hp.mem_iff.mp hl)

theorem Proper.mono {n m : Nat} (h : c.Proper n) (hnm : n ≤ m) : c.Proper m where
  nodup := h.nodup
  range l hl := ⟨(h.range l hl).1, Nat.le_trans (h.range l hl).2 hnm⟩

theorem atom_le_maxAtom {l : Literal} (h : l ∈ c) : l.atom ≤ c.maxAtom := by
  unfold maxAtom atoms
  induction c with
  | nil => simp at h
  | cons m c ih =>
    rcases List.mem_cons.mp h with rfl | h
    · exact Nat.le_max_left _ _
    · exact Nat.le_trans (ih h) (Nat.le_max_right _ _)

theorem maxAtom_le {n : Nat} (h : ∀ l ∈ c, l.atom ≤ n) : c.maxAtom ≤ n := by
  unfold maxAtom atoms
  induction c with
  | nil => exact Nat.zero_le _
  | cons m c ih =>
    exact Nat.max_le.mpr ⟨h m (by simp), ih fun l hl => h l (List.mem_cons_of_mem _ hl)⟩

theorem maxAtom_le_iff {n : Nat} : c.maxAtom ≤ n ↔ ∀ l ∈ c, l.atom ≤ n :=
  ⟨fun h _ hl => Nat.le_trans (atom_le_maxAtom hl) h, maxAtom_le⟩

theorem lt_maxAtom_iff {n : Nat} : n < c.maxAtom ↔ ∃ l ∈ c, n < l.atom := by
  rw [← Nat.not_le, maxAtom_le_iff]
  simp

@[simp] theorem maxAtom_canonical (c : Clause) : c.canonical.maxAtom = c.maxAtom := by
  refine Nat.le_antisymm ?_ ?_
  · exact maxAtom_le fun l hl => atom_le_maxAtom (mem_canonical.mp hl)
  · exact maxAtom_le fun l hl => atom_le_maxAtom (mem_canonical.mpr hl)

@[simp] theorem canonical_canonical (c : Clause) : c.canonical.canonical = c.canonical :=
  (increasing_canonical c).ofList_eq

/-- Clauses with the same canonical form have the same literals. -/
theorem mem_iff_of_canonical_eq (h : c.canonical = d.canonical) (l : Literal) : l ∈ c ↔ l ∈ d := by
  rw [← mem_canonical, h, mem_canonical]

/-! ## Tautologies -/

theorem satisfiedBy_of_hasComplement (v : Nat → Bool) (h : c.hasComplement = true) :
    c.satisfiedBy v = true := by
  induction c with
  | nil => simp [hasComplement] at h
  | cons l c ih =>
    cases c with
    | nil => simp [hasComplement] at h
    | cons m c =>
      simp only [hasComplement, Bool.or_eq_true, beq_iff_eq] at h
      rcases h with rfl | h
      -- of two complementary neighbours one is true
      · cases hm : m.trueUnder v with
        | true => exact satisfiedBy_of_mem (by simp) hm
        | false =>
          have hneg : (-m).trueUnder v = true := by simp [Literal.trueUnder_neg, hm]
          exact satisfiedBy_of_mem (by simp) hneg
      · obtain ⟨k, hk, ht⟩ := satisfiedBy_iff.mp (ih h)
        exact satisfiedBy_of_mem (List.mem_cons_of_mem _ hk) ht

/-- Two literals that follow each other in order, without being complementary, differ in their
atoms. -/
theorem atom_lt_of_order {l m : Literal} (h : Literal.order l m = .lt) (hne : l ≠ -m) :
    l.atom < m.atom := by
  simp only [Literal.order, compareLex, compareOn, Ordering.then_eq_lt, Nat.compare_eq_lt,
    Nat.compare_eq_eq] at h
  rcases h with h | ⟨ha, hp⟩
  · exact h
  · have hpol : l.polarity = (-m).polarity := by
      rw [Literal.polarity_neg]
      cases hl : l.polarity <;> cases hm : m.polarity <;> simp_all [compare]
    exact absurd (Literal.ext (m := -m) ha hpol) hne

theorem nodup_of_hasComplement (hi : Ordered.Increasing Literal.order c)
    (h : c.hasComplement = false) : (c.map Literal.atom).Pairwise (· < ·) := by
  induction c with
  | nil => simp
  | cons l c ih =>
    obtain ⟨hl, hc⟩ := List.pairwise_cons.mp hi
    cases c with
    | nil => simp
    | cons m c =>
      simp only [hasComplement, Bool.or_eq_false_iff, beq_eq_false_iff_ne] at h
      have hlm := atom_lt_of_order (hl m (by simp)) h.1
      have htail := ih hc h.2
      -- the atom in front is below the next, and so below all
      rw [List.map_cons, List.pairwise_cons]
      refine ⟨?_, htail⟩
      intro i hi
      simp only [List.map_cons, List.mem_cons] at hi
      rcases hi with rfl | hi
      · exact hlm
      · exact Nat.lt_trans hlm ((List.pairwise_cons.mp htail).1 i hi)

/-- A canonical clause without complementary neighbours is proper. -/
theorem proper_canonical (h : c.canonical.hasComplement = false) (hz : ∀ l ∈ c, l.atom ≠ 0) :
    c.canonical.Proper c.canonical.maxAtom where
  nodup := (nodup_of_hasComplement (increasing_canonical c) h).imp Nat.ne_of_lt
  range l hl := ⟨Nat.pos_of_ne_zero (hz l (mem_canonical.mp hl)), atom_le_maxAtom hl⟩

end Clause

end Clausal
