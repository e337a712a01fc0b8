import Clausal.Proofs.Encoding.Values
import Clausal.Proofs.Valuation

/-!
# Models of an encoding

A model of the instance of a formula is a valuation that gives the connectives their values and
makes the label of the formula true. The clauses that define the connectives are told from the one
that asserts the label by the two atoms that each of them has.
-/

namespace Clausal

variable {w : Nat → Bool}

/-! ## The clauses of definitions -/

/-- A clause that defines a connective: its atoms are among `1, …, n`, and there are two of them. -/
structure IsDefinition (n : Nat) (c : Clause) : Prop where
  range : ∀ l ∈ c, 0 < l.atom ∧ l.atom ≤ n
  two : ∃ l ∈ c, ∃ m ∈ c, l.atom ≠ m.atom

theorem IsDefinition.mono {n m : Nat} {c : Clause} (h : IsDefinition n c) (hnm : n ≤ m) :
    IsDefinition m c where
  range l hl := ⟨(h.range l hl).1, Nat.le_trans (h.range l hl).2 hnm⟩
  two := h.two

theorem IsDefinition.canonical_ne {n : Nat} {c : Clause} (h : IsDefinition n c) (l : Literal) :
    c.canonical ≠ [l] := by
  intro heq
  obtain ⟨m, hm, m', hm', hne⟩ := h.two
  rw [← Clause.mem_canonical, heq, List.mem_singleton] at hm hm'
  exact hne (by rw [hm, hm'])

/-- The clauses of a connective have its atom and that of an operand. -/
theorem Connective.two_of_mem_definition {op : Connective} {z : Literal} {ls : List Literal}
    {c : Clause} (hne : ls ≠ []) (hls : ∀ l ∈ ls, l.atom ≠ z.atom)
    (hc : c ∈ op.definition z ls) : ∃ l ∈ c, ∃ m ∈ c, l.atom ≠ m.atom := by
  obtain ⟨k, hk⟩ := List.exists_mem_of_ne_nil ls hne
  cases op <;> simp only [definition, List.mem_append, List.mem_map, List.mem_singleton] at hc
  · rcases hc with ⟨l, hl, rfl⟩ | rfl
    · exact ⟨l, by simp, -z, by simp, hls l hl⟩
    · exact ⟨-k, List.mem_cons_of_mem _ (List.mem_map_of_mem hk), z, by simp, hls k hk⟩
  · rcases hc with ⟨l, hl, rfl⟩ | rfl
    · exact ⟨-l, by simp, z, by simp, hls l hl⟩
    · exact ⟨k, by simp [hk], -z, by simp, hls k hk⟩

namespace Formula

mutual

theorem isDefinition_of_mem_definitions (h : Nat) : ∀ (done : Nat) (f : Formula),
    (f.places done).find? (Place.fails h) = none →
      ∀ c ∈ f.definitions (h + done), IsDefinition (h + (done + f.connectiveCount)) c
  | _, var a, _ => by simp [definitions]
  | done, neg f, hf => isDefinition_of_mem_definitions h done f hf
  | done, node op fs, hf => by
    rw [places] at hf
    by_cases hempty : fs.isEmpty = true
    · rw [if_pos hempty] at hf
      simp [Place.fails] at hf
    · rw [if_neg hempty, List.find?_append, Option.or_eq_none_iff] at hf
      have hrange := range_labelsOf h done fs hf.1
      have hne : labelsOf (h + done) fs ≠ [] := by
        cases fs with
        | nil => exact absurd rfl hempty
        | cons f fs => exact List.cons_ne_nil _ _
      intro c hc
      rw [definitions, List.mem_append] at hc
      rw [connectiveCount]
      rcases hc with hc | hc
      · exact (isDefinition_of_mem_definitionsOf h done fs hf.1 c hc).mono (by omega)
      · refine ⟨Connective.atom_of_mem_definition (P := fun i => 0 < i ∧ i ≤ _) ?_ ?_ hc, ?_⟩
        · exact ⟨Nat.succ_pos _, by simp only; omega⟩
        · intro l hl
          have := hrange l hl
          omega
        · refine Connective.two_of_mem_definition hne (fun l hl => ?_) hc
          have := hrange l hl
          simp only
          omega

theorem isDefinition_of_mem_definitionsOf (h : Nat) : ∀ (done : Nat) (fs : List Formula),
    (placesOf done fs).find? (Place.fails h) = none →
      ∀ c ∈ definitionsOf (h + done) fs, IsDefinition (h + (done + connectiveCountOf fs)) c
  | _, [], _ => by simp [definitionsOf]
  | done, f :: fs, hf => by
    rw [placesOf, List.find?_append, Option.or_eq_none_iff] at hf
    intro c hc
    rw [definitionsOf, List.mem_append, Nat.add_assoc] at hc
    rw [connectiveCountOf]
    rcases hc with hc | hc
    · exact (isDefinition_of_mem_definitions h done f hf.1 c hc).mono (by omega)
    · have hdef := isDefinition_of_mem_definitionsOf h (done + f.connectiveCount) fs hf.2 c hc
      exact hdef.mono (by omega)

end

end Formula

/-! ## The clauses of an encoding -/

/-- A valuation satisfies every clause but the one that asserts the root. -/
def Encoding.DefinedBy (e : Encoding) (w : Nat → Bool) : Prop :=
  ∀ c ∈ e.cnf.clauses, c ≠ [e.root] → c.satisfiedBy w = true

namespace Supply.Encodes

variable {s t : Supply} {f : Formula} {e : Encoding}

theorem isDefinition (he : s.Encodes f e t) {c : Clause} (hc : c ∈ f.definitions s.mark) :
    IsDefinition t.mark c := by
  have h := Formula.isDefinition_of_mem_definitions s.mark 0 f he.find? c hc
  rwa [Nat.zero_add, ← he.mark] at h

theorem range_root (he : s.Encodes f e t) : 0 < e.root.atom ∧ e.root.atom ≤ t.mark := by
  have h := Formula.range_label s.mark 0 f he.find?
  rwa [Nat.zero_add, ← he.mark, Nat.add_zero, ← he.root] at h

theorem mem_clauses (he : s.Encodes f e t) {d : Clause} :
    d ∈ e.cnf.clauses ↔ (∃ c ∈ f.definitions s.mark, c.canonical = d) ∨ d = [e.root] := by
  rw [he.cnf, he.root]
  show d ∈ (clausesOf s.mark f).clauses ↔ _
  rw [clausesOf, Cnf.mem_clauses_empty_insertAll]
  constructor
  · intro hmem
    obtain ⟨c, hc, rfl⟩ := hmem
    rcases List.mem_append.mp hc with hc | hc
    · exact .inl ⟨c, hc, rfl⟩
    · rw [List.mem_singleton] at hc
      exact .inr (by rw [hc]; rfl)
  · intro hmem
    rcases hmem with ⟨c, hc, rfl⟩ | rfl
    · exact ⟨c, List.mem_append_left _ hc, rfl⟩
    · exact ⟨_, List.mem_append_right _ (List.mem_singleton_self _), rfl⟩

/-- The clauses other than that of the root say what the definitions say. -/
theorem definedBy_iff (he : s.Encodes f e t) :
    e.DefinedBy w ↔ Clause.SatisfiedAll w (f.definitions s.mark) := by
  constructor
  · intro h c hc
    rw [← Clause.satisfiedBy_canonical]
    exact h _ (he.mem_clauses.mpr (.inl ⟨c, hc, rfl⟩)) ((he.isDefinition hc).canonical_ne _)
  · intro h d hd hne
    rcases he.mem_clauses.mp hd with ⟨c, hc, rfl⟩ | rfl
    · rw [Clause.satisfiedBy_canonical]
      exact h c hc
    · exact absurd rfl hne

theorem satisfiedBy_iff (he : s.Encodes f e t) :
    e.cnf.satisfiedBy w = true ↔ e.DefinedBy w ∧ e.root.trueUnder w = true := by
  have hroot : Clause.satisfiedBy w [e.root] = e.root.trueUnder w := by
    simp [Clause.satisfiedBy]
  rw [Cnf.satisfiedBy_iff, ← hroot]
  constructor
  · intro h
    exact ⟨fun c hc _ => h c hc, h _ (he.mem_clauses.mpr (.inr rfl))⟩
  · intro hboth c hc
    obtain ⟨h, hr⟩ := hboth
    by_cases heq : c = [e.root]
    · rw [heq]
      exact hr
    · exact h c hc heq

/-- Where the connectives have their values, the root has the value of the formula. -/
theorem trueUnder_root (he : s.Encodes f e t) (hw : e.DefinedBy w) :
    e.root.trueUnder w = f.eval fun a => w a.index := by
  rw [he.root]
  exact Formula.trueUnder_label s.mark f (he.definedBy_iff.mp hw)

theorem range_of_mem (he : s.Encodes f e t) {c : Clause} (hc : c ∈ e.cnf.clauses) :
    ∀ l ∈ c, 0 < l.atom ∧ l.atom ≤ t.mark := by
  intro l hl
  rcases he.mem_clauses.mp hc with ⟨d, hd, rfl⟩ | rfl
  · exact (he.isDefinition hd).range l (Clause.mem_canonical.mp hl)
  · rw [List.mem_singleton.mp hl]
    exact he.range_root

theorem atomCount (he : s.Encodes f e t) : e.cnf.atomCount = t.mark := by
  have hmem : ∀ c ∈ (clausesOf s.mark f).clauses, c ∈ e.cnf.clauses := by
    rw [he.cnf]
    exact fun c hc => hc
  rw [he.cnf]
  refine Cnf.atomCount_declareAtomCount t.mark_le fun c hc => Clause.maxAtom_le fun l hl => ?_
  exact (he.range_of_mem (hmem c hc) l hl).2

end Supply.Encodes

end Clausal
