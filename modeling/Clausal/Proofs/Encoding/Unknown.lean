import Clausal.Proofs.Encoding.Outcome

/-!
# Atoms that are not known

The rule of an encoding is that every connective has an operand and that every atom is known when
the encoding begins; the leftmost place that offends against it is to be reported. An atom is
checked when it is met, though, and the mark has moved on by then. So an atom above the mark on
entry is found out unless enough connectives have been completed before it, and is otherwise taken
for the atom of one of them.
-/

namespace Clausal

/-! ## The rule -/

/-- Whether a place offends against the rule when the encoding begins at the mark `h`. -/
def Place.offends (h : Nat) (p : Place) : Bool :=
  match p.check with
  | .known a => decide (h < a.index)
  | .operand => true
  | .fresh => false

/-- An atom that is above the mark on entry, but no longer above the mark when it is met. -/
def Place.IsHidden (h : Nat) (p : Place) : Prop :=
  ∃ a, p.check = .known a ∧ h < a.index ∧ a.index ≤ h + p.before

namespace Formula

mutual

/-- Whether every conjunction and disjunction has an operand. -/
def hasOperands : Formula → Bool
  | var _ => true
  | neg f => f.hasOperands
  | node _ fs => !fs.isEmpty && hasOperandsOf fs

def hasOperandsOf : List Formula → Bool
  | [] => true
  | f :: fs => f.hasOperands && hasOperandsOf fs

end

mutual

/-- No place offends when the connectives have operands and the atoms are known. -/
theorem find?_places_eq_none_iff (h : Nat) : ∀ (done : Nat) (f : Formula),
    (f.places done).find? (Place.offends h) = none ↔
      f.hasOperands = true ∧ ∀ a ∈ f.leaves, a.index ≤ h
  | done, var a => by
    simp [places, Place.offends, hasOperands, leaves]
  | done, neg f => find?_places_eq_none_iff h done f
  | done, node op fs => by
    have hfs := find?_placesOf_eq_none_iff h done fs
    rw [places, hasOperands, leaves]
    by_cases hempty : fs.isEmpty = true
    · simp [hempty, Place.offends]
    · have hfresh : [(⟨done + connectiveCountOf fs, .fresh⟩ : Place)].find? (Place.offends h)
          = none := by simp [Place.offends]
      rw [if_neg hempty, List.find?_append, hfresh, Option.or_none, hfs]
      simp [hempty]

theorem find?_placesOf_eq_none_iff (h : Nat) : ∀ (done : Nat) (fs : List Formula),
    (placesOf done fs).find? (Place.offends h) = none ↔
      hasOperandsOf fs = true ∧ ∀ a ∈ leavesOf fs, a.index ≤ h
  | _, [] => by simp [placesOf, hasOperandsOf, leavesOf]
  | done, f :: fs => by
    have hf := find?_places_eq_none_iff h done f
    have hfs := find?_placesOf_eq_none_iff h (done + f.connectiveCount) fs
    rw [placesOf, List.find?_append, Option.or_eq_none_iff, hf, hfs, hasOperandsOf, leavesOf,
      Bool.and_eq_true]
    simp only [List.mem_append]
    constructor
    · intro hboth
      obtain ⟨⟨ho, hl⟩, ho', hl'⟩ := hboth
      exact ⟨⟨ho, ho'⟩, fun a ha => ha.elim (hl a) (hl' a)⟩
    · intro hall
      obtain ⟨⟨ho, ho'⟩, hl⟩ := hall
      exact ⟨⟨ho, fun a ha => hl a (.inl ha)⟩, ho', fun a ha => hl a (.inr ha)⟩

end

/-! ## The order of places -/

mutual

theorem before_of_mem_places : ∀ (done : Nat) (f : Formula), ∀ p ∈ f.places done,
    done ≤ p.before ∧ p.before ≤ done + f.connectiveCount ∧
      (p.check = .fresh → p.before < done + f.connectiveCount)
  | done, var a, p, hp => by
    rw [places, List.mem_singleton] at hp
    subst hp
    simp
  | done, neg f, p, hp => before_of_mem_places done f p hp
  | done, node op fs, p, hp => by
    rw [places] at hp
    rw [connectiveCount]
    by_cases hempty : fs.isEmpty = true
    · rw [if_pos hempty, List.mem_singleton] at hp
      subst hp
      simp
    · rw [if_neg hempty, List.mem_append, List.mem_singleton] at hp
      rcases hp with hp | rfl
      · obtain ⟨hge, hle, -⟩ := before_of_mem_placesOf done fs p hp
        exact ⟨hge, by omega, fun _ => by omega⟩
      · simp only
        omega

theorem before_of_mem_placesOf : ∀ (done : Nat) (fs : List Formula), ∀ p ∈ placesOf done fs,
    done ≤ p.before ∧ p.before ≤ done + connectiveCountOf fs ∧
      (p.check = .fresh → p.before < done + connectiveCountOf fs)
  | _, [], p, hp => by cases hp
  | done, f :: fs, p, hp => by
    rw [placesOf, List.mem_append] at hp
    rw [connectiveCountOf]
    rcases hp with hp | hp
    · obtain ⟨hge, hle, hfresh⟩ := before_of_mem_places done f p hp
      refine ⟨hge, by omega, fun hcheck => ?_⟩
      have := hfresh hcheck
      omega
    · obtain ⟨hge, hle, hfresh⟩ := before_of_mem_placesOf (done + f.connectiveCount) fs p hp
      refine ⟨by omega, by omega, fun hcheck => ?_⟩
      have := hfresh hcheck
      omega

end

mutual

/-- Further to the right more connectives have been completed. -/
theorem pairwise_places : ∀ (done : Nat) (f : Formula),
    (f.places done).Pairwise fun p q => p.before ≤ q.before
  | done, var a => List.pairwise_singleton _ _
  | done, neg f => pairwise_places done f
  | done, node op fs => by
    rw [places]
    split
    · exact List.pairwise_singleton _ _
    · refine List.pairwise_append.mpr
        ⟨pairwise_placesOf done fs, List.pairwise_singleton _ _, fun p hp q hq => ?_⟩
      rw [List.mem_singleton] at hq
      subst hq
      exact (before_of_mem_placesOf done fs p hp).2.1

theorem pairwise_placesOf : ∀ (done : Nat) (fs : List Formula),
    (placesOf done fs).Pairwise fun p q => p.before ≤ q.before
  | _, [] => List.Pairwise.nil
  | done, f :: fs => by
    refine List.pairwise_append.mpr ⟨pairwise_places done f, pairwise_placesOf _ fs, ?_⟩
    intro p hp q hq
    have hleft := before_of_mem_places done f p hp
    have hright := before_of_mem_placesOf _ fs q hq
    omega

end

end Formula

/-! ## What is found out -/

namespace Place

variable {h : Nat} {p q : Place}

/-- A place that offends passes its check when its atom is hidden. -/
theorem isHidden_iff : p.IsHidden h ↔ p.offends h = true ∧ p.fails h = false := by
  unfold IsHidden offends fails
  cases hp : p.check <;> simp

/-- A failing place offends, unless the atoms run out. -/
theorem offends_of_fails (hf : p.fails h = true)
    (hfresh : p.check = .fresh → h + p.before < atomMax) : p.offends h = true := by
  unfold fails at hf
  unfold offends
  cases hp : p.check with
  | known a =>
    simp only [hp, decide_eq_true_eq] at hf ⊢
    omega
  | operand => rfl
  | fresh =>
    have := hfresh hp
    simp only [hp, decide_eq_true_eq] at hf
    omega

/-- A failing place further to the right has another error than a hidden atom would have. -/
theorem error_ne_of_isHidden (hp : p.IsHidden h) (hq : q.fails h = true)
    (hpq : p.before ≤ q.before) : q.error ≠ p.error := by
  obtain ⟨a, ha, -, hle⟩ := hp
  unfold fails at hq
  unfold error
  rw [ha]
  cases hq' : q.check with
  | known b =>
    simp only [hq', decide_eq_true_eq] at hq
    intro heq
    simp only [Error.supply.injEq, SupplyError.unknownAtom.injEq] at heq
    omega
  | operand => simp
  | fresh => simp

end Place

namespace Supply

variable {s : Supply} {f : Formula}

/-- The error of an encoding, if it fails. -/
def refusal (s : Supply) (f : Formula) : Option Error :=
  match (s.encode f).1 with
  | .ok _ => none
  | .error x => some x

/-- The error that the rule asks for, if a place offends. -/
def promised (s : Supply) (f : Formula) : Option Error :=
  ((f.places 0).find? (Place.offends s.mark)).map Place.error

theorem refusal_eq (s : Supply) (f : Formula) :
    s.refusal f = ((f.places 0).find? (Place.fails s.mark)).map Place.error := by
  unfold refusal
  cases hf : (f.places 0).find? (Place.fails s.mark) with
  | none =>
    obtain ⟨t, ht, -⟩ := encode_of_find?_eq_none hf
    rw [ht]
    rfl
  | some p =>
    obtain ⟨t, ht, -⟩ := encode_of_find?_eq_some hf
    rw [ht]
    rfl

theorem offends_of_fails_of_mem (hroom : s.mark + f.connectiveCount ≤ atomMax) {p : Place}
    (hp : p ∈ f.places 0) (hf : p.fails s.mark = true) : p.offends s.mark = true := by
  apply Place.offends_of_fails hf
  intro hfresh
  have := (Formula.before_of_mem_places 0 f p hp).2.2 hfresh
  omega

/-- When no place offends none fails. -/
theorem find?_fails_eq_none (hroom : s.mark + f.connectiveCount ≤ atomMax)
    (h : (f.places 0).find? (Place.offends s.mark) = none) :
    (f.places 0).find? (Place.fails s.mark) = none := by
  rw [List.find?_eq_none] at h ⊢
  intro p hp hf
  exact h p hp (offends_of_fails_of_mem hroom hp hf)

theorem refusal_eq_promised_iff (hroom : s.mark + f.connectiveCount ≤ atomMax) :
    s.refusal f = s.promised f ↔
      ∀ p, (f.places 0).find? (Place.offends s.mark) = some p → ¬ p.IsHidden s.mark := by
  rw [refusal_eq, promised]
  cases ho : (f.places 0).find? (Place.offends s.mark) with
  | none => simp [find?_fails_eq_none hroom ho]
  | some p =>
    obtain ⟨hoff, before, after, heq, hbefore⟩ := List.find?_eq_some_iff_append.mp ho
    have hmem : ∀ q, q ∈ before ∨ q ∈ p :: after → q ∈ f.places 0 := fun q hq => by
      rw [heq]
      exact List.mem_append.mpr hq
    -- nothing fails to the left of the leftmost place that offends
    have hpass : before.find? (Place.fails s.mark) = none := by
      rw [List.find?_eq_none]
      intro q hq hf
      have hq' := hbefore q hq
      rw [offends_of_fails_of_mem hroom (hmem q (.inl hq)) hf] at hq'
      cases hq'
    rw [heq, List.find?_append, hpass, Option.none_or, List.find?_cons]
    cases hf : p.fails s.mark with
    | true =>
      simp only [Option.map_some, true_iff]
      intro q hq hhidden
      cases hq
      rw [(Place.isHidden_iff.mp hhidden).2] at hf
      cases hf
    | false =>
      have hhidden := Place.isHidden_iff.mpr ⟨hoff, hf⟩
      refine iff_of_false (fun hsame => ?_) (fun hall => hall p rfl hhidden)
      -- a hidden atom passes, and what is found further to the right is another error
      obtain ⟨q, hq, herror⟩ := Option.map_eq_some_iff.mp hsame
      have hsorted := Formula.pairwise_places 0 f
      rw [heq] at hsorted
      have hle := (List.pairwise_cons.mp (List.pairwise_append.mp hsorted).2.1).1 q
        (List.mem_of_find?_eq_some hq)
      exact Place.error_ne_of_isHidden hhidden (List.find?_some hq) hle herror

/-- An encoding reports the leftmost place that offends against the rule, unless this is an atom
that is hidden. It then goes on, to the first check that fails with the mark moved on. -/
theorem refusal_eq_promised_unless_hidden (hroom : s.mark + f.connectiveCount ≤ atomMax) :
    (s.promised f = none ↔ f.hasOperands = true ∧ ∀ a ∈ f.leaves, a.index ≤ s.mark) ∧
      s.refusal f = ((f.places 0).find? (Place.fails s.mark)).map Place.error ∧
      (s.refusal f = s.promised f ↔
        ∀ p, (f.places 0).find? (Place.offends s.mark) = some p → ¬ p.IsHidden s.mark) := by
  refine ⟨?_, refusal_eq s f, refusal_eq_promised_iff hroom⟩
  rw [promised, Option.map_eq_none_iff, Formula.find?_places_eq_none_iff]

/-- An atom above the mark is reported where no connective has been completed before it. -/
theorem refusal_eq_promised_of_first :
    let s : Supply := ⟨1, 0, by decide⟩
    let f : Formula := .node .or
      [.var ⟨2, by decide⟩, .node .and [.var ⟨1, by decide⟩, .var ⟨1, by decide⟩]]
    s.mark + f.connectiveCount ≤ atomMax ∧ s.refusal f = s.promised f ∧
      s.promised f = some (.supply (.unknownAtom 2)) := by
  intro s f
  have hroom : s.mark + f.connectiveCount ≤ atomMax := by decide
  refine ⟨hroom, (refusal_eq_promised_unless_hidden hroom).2.2.mpr fun p hp hhidden => ?_, rfl⟩
  have hp : some (⟨0, .known ⟨2, by decide⟩⟩ : Place) = some p := hp
  cases hp
  obtain ⟨a, ha, -, hle⟩ := hhidden
  cases ha
  exact absurd hle (by decide)

/-- The conjunction takes the atom 2, and the atom 2 that follows passes as known. -/
theorem refusal_ne_promised_of_hidden :
    let s : Supply := ⟨1, 0, by decide⟩
    let f : Formula := .node .or
      [.node .and [.var ⟨1, by decide⟩, .var ⟨1, by decide⟩], .var ⟨2, by decide⟩]
    s.mark + f.connectiveCount ≤ atomMax ∧ s.promised f = some (.supply (.unknownAtom 2)) ∧
      s.refusal f = none :=
  ⟨by decide, rfl, rfl⟩

end Supply

end Clausal
