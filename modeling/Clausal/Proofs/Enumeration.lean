import Clausal.Proofs.Session
import Mathlib.Data.Set.Card

/-!
# Enumeration of models

What a valuation says about listed atoms is the set of those that it makes true. Each round of an
enumeration finds a model, unless there is none, and the clause that blocks it is false under the
valuations that say the same about the listed atoms, and under no others. So a round takes one member
from what the models of the instance say, and the rounds end when nothing is left or the limit is
reached.
-/

namespace Clausal

variable {atoms : List Atom} {v w : Nat → Bool} {c : Clause} {cnf : Cnf} {m : Model}

/-! ## What is said about listed atoms -/

/-- The listed atoms that a valuation makes true. -/
def trueAmong (atoms : List Atom) (v : Nat → Bool) : Set Atom :=
  {a | a ∈ atoms ∧ v a.index = true}

/-- The true atoms of a model, as a set. -/
def Model.truths (m : Model) : Set Atom := {a | a ∈ m.trueAtoms}

/-- What the models of an instance make true among listed atoms. -/
def Cnf.projections (cnf : Cnf) (atoms : List Atom) : Set (Set Atom) :=
  {t | ∃ v, cnf.satisfiedBy v = true ∧ trueAmong atoms v = t}

theorem trueAmong_eq_iff :
    trueAmong atoms v = trueAmong atoms w ↔ ∀ a ∈ atoms, v a.index = w a.index := by
  constructor
  · intro h a ha
    have hmem : a ∈ trueAmong atoms v ↔ a ∈ trueAmong atoms w := by rw [h]
    rw [Bool.eq_iff_iff]
    exact ⟨fun hv => (hmem.mp ⟨ha, hv⟩).2, fun hw => (hmem.mpr ⟨ha, hw⟩).2⟩
  · intro h
    ext a
    exact and_congr_right fun ha => by rw [h a ha]

theorem Model.truths_restrict (m : Model) (atoms : List Atom) :
    (m.restrict atoms).truths = trueAmong atoms m.value := by
  ext a
  show a ∈ (m.restrict atoms).trueAtoms ↔ a ∈ atoms ∧ m.valueOf a = true
  rw [mem_trueAtoms_restrict, valueOf_eq_true_iff]

theorem Cnf.finite_projections (cnf : Cnf) (atoms : List Atom) :
    (cnf.projections atoms).Finite := by
  refine (List.finite_toSet atoms).finite_subsets.subset ?_
  rintro t ⟨v, -, rfl⟩
  exact fun a ha => ha.1

/-! ## Blocking -/

/-- A blocking clause is false where a valuation says the same about the atoms as the model. -/
theorem Model.satisfiedBy_blockingClause :
    (m.blockingClause atoms).satisfiedBy v = true ↔ trueAmong atoms v ≠ trueAmong atoms m.value := by
  rw [Ne, trueAmong_eq_iff, Clause.satisfiedBy_iff]
  simp [blockingClause, Literal.trueUnder, valueOf, Bool.eq_not_iff]

/-- Models that make the same listed atoms true are blocked by the same clause. -/
theorem Model.blockingClause_eq {m' : Model}
    (h : trueAmong atoms m.value = trueAmong atoms m'.value) :
    m.blockingClause atoms = m'.blockingClause atoms := by
  refine List.map_congr_left fun a ha => ?_
  show (⟨a.index, !m.value a.index⟩ : Literal) = ⟨a.index, !m'.value a.index⟩
  rw [trueAmong_eq_iff.mp h a ha]

theorem Model.inRange_blockingClause (m : Model) (hatoms : ∀ a ∈ atoms, a.index ≤ atomMax) :
    Cnf.InRange (m.blockingClause atoms) := by
  intro l hl
  obtain ⟨a, ha, rfl⟩ := List.mem_map.mp hl
  exact ⟨a.index_pos, hatoms a ha⟩

theorem Cnf.InRange.not_hasZero (h : Cnf.InRange c) : ¬ Search.HasZero c := by
  rintro ⟨l, hl, h0⟩
  have := (h l hl).1
  omega

theorem Cnf.satisfiedBy_insert :
    (cnf.insert c).satisfiedBy v = true ↔ c.satisfiedBy v = true ∧ cnf.satisfiedBy v = true := by
  rw [satisfiedBy_iff, satisfiedBy_iff, ← Clause.satisfiedBy_canonical]
  simp [Clause.SatisfiedAll, mem_clauses_insert]

/-- Blocking a model takes what it says about the atoms from the instance, and nothing else. -/
theorem Cnf.projections_insert_blockingClause :
    (cnf.insert (m.blockingClause atoms)).projections atoms
      = cnf.projections atoms \ {trueAmong atoms m.value} := by
  ext t
  constructor
  · rintro ⟨v, hv, rfl⟩
    obtain ⟨hblock, hv⟩ := satisfiedBy_insert.mp hv
    exact ⟨⟨v, hv, rfl⟩, Model.satisfiedBy_blockingClause.mp hblock⟩
  · rintro ⟨⟨v, hv, rfl⟩, hne⟩
    exact ⟨v, satisfiedBy_insert.mpr ⟨Model.satisfiedBy_blockingClause.mpr hne, hv⟩, rfl⟩

/-- The clause that blocks a model of an instance is none of its clauses. -/
theorem Cnf.canonical_blockingClause_notMem (hm : cnf.satisfiedBy m.value = true) :
    (m.blockingClause atoms).canonical ∉ cnf.clauses := by
  intro hmem
  have hsat := satisfiedBy_iff.mp hm _ hmem
  rw [Clause.satisfiedBy_canonical, Model.satisfiedBy_blockingClause] at hsat
  exact hsat rfl

/-! ## Rounds -/

/-- The models listed are distinct, tell what the models of an instance say about the atoms, and are
as many as there are to tell, up to a limit. -/
structure IsEnumeration (cnf : Cnf) (atoms : List Atom) (limit : Nat) (ms : List Model) : Prop where
  distinct : ms.Pairwise fun m m' => m.truths ≠ m'.truths
  projection : ∀ m ∈ ms, m.truths ∈ cnf.projections atoms
  length : ms.length = min limit (cnf.projections atoms).ncard

namespace IsEnumeration

variable {limit : Nat} {ms : List Model}

theorem of_unsatisfiable (hno : ∀ v, cnf.satisfiedBy v = false) (atoms : List Atom)
    (limit : Nat) : IsEnumeration cnf atoms limit [] := by
  have hempty : cnf.projections atoms = ∅ := by
    ext t
    simp [Cnf.projections, hno]
  refine ⟨List.Pairwise.nil, by simp, ?_⟩
  rw [hempty, Set.ncard_empty, Nat.min_zero]
  rfl

/-- A model comes before those that are found once it is blocked. -/
theorem cons (hm : cnf.satisfiedBy m.value = true)
    (h : IsEnumeration (cnf.insert (m.blockingClause atoms)) atoms limit ms) :
    IsEnumeration cnf atoms (limit + 1) (m.restrict atoms :: ms) := by
  have hmem : trueAmong atoms m.value ∈ cnf.projections atoms := ⟨_, hm, rfl⟩
  have hcard := Set.ncard_sdiff_singleton_add_one hmem (cnf.finite_projections atoms)
  obtain ⟨hdistinct, hprojection, hlength⟩ := h
  rw [Cnf.projections_insert_blockingClause] at hprojection hlength
  refine ⟨List.pairwise_cons.mpr ⟨fun m' hm' => ?_, hdistinct⟩, ?_, ?_⟩
  · rw [Model.truths_restrict]
    exact Ne.symm (hprojection m' hm').2
  · rintro m' hm'
    rcases List.mem_cons.mp hm' with rfl | hm'
    · rw [Model.truths_restrict]
      exact hmem
    · exact (hprojection m' hm').1
  · rw [List.length_cons, hlength]
    omega

/-- Nothing but one empty set can be said about no atoms. -/
theorem length_le_one (h : IsEnumeration cnf [] limit ms) : ms.length ≤ 1 := by
  have hsub : cnf.projections [] ⊆ {∅} := by
    rintro t ⟨v, -, rfl⟩
    simp [trueAmong]
  have hcard := Set.ncard_le_ncard hsub
  rw [Set.ncard_singleton] at hcard
  rw [h.length]
  omega

end IsEnumeration

namespace Search

/-- Without a time limit the rounds enumerate. -/
theorem findModels_isEnumeration (clock : Clock) (hatoms : ∀ a ∈ atoms, a.index ≤ atomMax)
    (limit : Nat) (hz : ∀ c ∈ cnf.clauses, ¬ HasZero c) (s : Search)
    (hlimit : s.config.timeLimit.value = .zero) :
    ∃ ms, ((oracle clock).findModels atoms limit cnf s).1 = .ok ms ∧
      IsEnumeration cnf atoms limit ms := by
  induction limit generalizing cnf s with
  | zero => exact ⟨[], rfl, List.Pairwise.nil, by simp, by simp⟩
  | succ limit ih =>
    have hfound := isFound_findModel hz clock s
    have hconfig := config_findModel clock cnf s
    rw [Oracle.findModels]
    generalize (oracle clock).findModel cnf s = r at hfound hconfig ⊢
    obtain ⟨result, t⟩ := r
    cases hfound with
    | none hno => exact ⟨[], rfl, .of_unsatisfiable hno atoms _⟩
    | timeout htimeout => exact absurd hlimit htimeout
    | @model m hcount hm =>
      have hrange := m.inRange_blockingClause hatoms
      have hz' : ∀ c ∈ (cnf.insert (m.blockingClause atoms)).clauses, ¬ HasZero c := by
        intro c hc
        rcases Cnf.mem_clauses_insert.mp hc with rfl | hc
        · exact fun ⟨l, hl, h0⟩ => hrange.not_hasZero ⟨l, Clause.mem_canonical.mp hl, h0⟩
        · exact hz c hc
      obtain ⟨ms, hms, henum⟩ := ih hz' t (hconfig ▸ hlimit)
      have hnew : cnf.clauses.contains (m.blockingClause atoms).canonical = false := by
        simpa using Cnf.canonical_blockingClause_notMem hm
      simp only [Cnf.addClause_of_inRange cnf hrange, hnew, Bool.not_false]
      generalize (oracle clock).findModels atoms limit _ t = r at hms ⊢
      obtain ⟨result, u⟩ := r
      cases hms
      exact ⟨_, rfl, henum.cons hm⟩

end Search

/-! ## Models of a formula -/

/-- An assignment to listed atoms, as the set of those that it makes true. -/
def trueOf (g : {a // a ∈ atoms} → Bool) : Set Atom := {a | ∃ h : a ∈ atoms, g ⟨a, h⟩ = true}

theorem trueOf_injective : Function.Injective (@trueOf atoms) := by
  intro g g' h
  funext ⟨a, ha⟩
  have hmem : a ∈ trueOf g ↔ a ∈ trueOf g' := by rw [h]
  rw [Bool.eq_iff_iff]
  simpa [trueOf, ha] using hmem

/-- The assignments to listed atoms that extend to a valuation making a formula true. -/
def Formula.assignments (f : Formula) (atoms : List Atom) : Set ({a // a ∈ atoms} → Bool) :=
  {g | ∃ v : Atom → Bool, f.eval v = true ∧ ∀ a, v a.1 = g a}

namespace Supply

variable {s t : Supply} {f : Formula} {e : Encoding}

/-- For atoms known on entry the instance says as much as the formula. -/
theorem Encodes.projections_eq_image (he : s.Encodes f e t)
    (hleaves : ∀ a ∈ f.leaves, a.index ≤ s.mark) (hatoms : ∀ a ∈ atoms, a.index ≤ s.mark) :
    e.cnf.projections atoms = trueOf '' f.assignments atoms := by
  ext ts
  constructor
  · rintro ⟨v, hv, rfl⟩
    refine ⟨fun a => v a.1.index, ⟨fun a => v a.index, he.eval_of_satisfiedBy hv, fun a => rfl⟩, ?_⟩
    ext a
    simp [trueOf, trueAmong]
  · rintro ⟨g, ⟨v, hv, hg⟩, rfl⟩
    obtain ⟨w, hw, hagree⟩ := he.exists_satisfiedBy hleaves hv
    refine ⟨w, hw, ?_⟩
    ext a
    show a ∈ atoms ∧ w a.index = true ↔ ∃ h : a ∈ atoms, g ⟨a, h⟩ = true
    constructor
    · rintro ⟨ha, htrue⟩
      exact ⟨ha, by rw [← hg, ← hagree a (hatoms a ha), htrue]⟩
    · rintro ⟨ha, htrue⟩
      exact ⟨ha, by rw [hagree a (hatoms a ha), hg ⟨a, ha⟩, htrue]⟩

end Supply

namespace Session

variable {σ : Type}

theorem allModels_of_encode_eq_ok (s : Session σ) {f : Formula} {e : Encoding} {t : Supply}
    (h : s.supply.encode f = (.ok e, t)) (atoms : List Atom) (limit : Nat) :
    (s.allModels f atoms limit).1 = (s.oracle.findModels atoms limit e.cnf s.state).1 := by
  unfold allModels encode
  rw [h]

theorem allModels_of_encode_eq_error (s : Session σ) {f : Formula} {x : Error} {t : Supply}
    (h : s.supply.encode f = (.error x, t)) (atoms : List Atom) (limit : Nat) :
    (s.allModels f atoms limit).1 = .error x := by
  unfold allModels encode
  rw [h]

/-- Without a time limit the models of a formula are enumerated on any atoms, those of connectives
and those that do not occur included; the only other answer is that there are too few atoms for the
connectives. On atoms known on entry there are as many models as there are assignments that extend
to a valuation making the formula true. -/
theorem allModels_isEnumeration (supply : Supply) (clock : Search.Clock) (state : Search)
    (f : Formula) (atoms : List Atom) (limit : Nat)
    (hlimit : state.config.timeLimit.value = .zero) (hops : f.hasOperands = true)
    (hleaves : ∀ a ∈ f.leaves, a.index ≤ supply.mark)
    (hatoms : ∀ a ∈ atoms, a.index ≤ atomMax) :
    let r := (Session.mk supply (Search.oracle clock) state).allModels f atoms limit
    (atomMax < supply.mark + f.connectiveCount → r.1 = .error (.supply .atomsExhausted)) ∧
      (supply.mark + f.connectiveCount ≤ atomMax →
        ∃ e ms, (supply.encode f).1 = .ok e ∧ r.1 = .ok ms ∧ IsEnumeration e.cnf atoms limit ms ∧
          ((∀ a ∈ atoms, a.index ≤ supply.mark) →
            (e.cnf.projections atoms).ncard = (f.assignments atoms).ncard) ∧
          (atoms = [] → ms.length ≤ 1)) := by
  intro r
  refine ⟨fun hroom => ?_, fun hroom => ?_⟩
  · obtain ⟨t, ht⟩ := Supply.encode_eq_atomsExhausted hops hleaves hroom
    exact allModels_of_encode_eq_error (Session.mk supply (Search.oracle clock) state) ht atoms limit
  · obtain ⟨e, t, ht, -⟩ := Supply.exists_encode_eq_ok hops hleaves hroom
    have he := Supply.encodes_of_eq_ok ht
    obtain ⟨ms, hms, henum⟩ :=
      Search.findModels_isEnumeration clock hatoms limit (fun c hc => he.not_hasZero hc) state hlimit
    have hr := allModels_of_encode_eq_ok (Session.mk supply (Search.oracle clock) state) ht atoms limit
    refine ⟨e, ms, by rw [ht], hr.trans hms, henum, fun hknown => ?_, fun hnil => ?_⟩
    · rw [he.projections_eq_image hleaves hknown,
        Set.ncard_image_of_injective _ trueOf_injective]
    · subst hnil
      exact henum.length_le_one

/-- A disjunction of two atoms has a model for either value of the first, in a list that names it
twice. -/
theorem allModels_disjunction :
    let supply : Supply := ⟨2, 0, by decide⟩
    let x : Atom := ⟨1, by decide⟩
    let f : Formula := .node .or [.var x, .var ⟨2, by decide⟩]
    let state := Search.new .default 0
    let session : Session Search := ⟨supply, Search.oracle fun _ => .zero, state⟩
    (state.config.timeLimit.value = .zero ∧ f.hasOperands = true ∧
        (∀ a ∈ f.leaves, a.index ≤ supply.mark) ∧ (∀ a ∈ [x, x], a.index ≤ atomMax)) ∧
      ∃ ms, (session.allModels f [x, x] 5).1 = .ok ms ∧ ms.length = 2 ∧
        ms.Pairwise fun m m' => m.truths ≠ m'.truths := by
  intro supply x f state session
  have hlimit : state.config.timeLimit.value = .zero := rfl
  have hops : f.hasOperands = true := rfl
  have hleaves : ∀ a ∈ f.leaves, a.index ≤ supply.mark := by decide
  have hatoms : ∀ a ∈ [x, x], a.index ≤ atomMax := by decide
  obtain ⟨-, henum⟩ := allModels_isEnumeration supply (fun _ => .zero) state f [x, x] 5 hlimit hops
    hleaves hatoms
  obtain ⟨e, ms, -, hms, h, hcount, -⟩ := henum (by decide)
  refine ⟨⟨hlimit, hops, hleaves, hatoms⟩, ms, hms, ?_, h.distinct⟩
  -- either value of the first atom extends by a true second one
  have hall : f.assignments [x, x] = Set.univ := by
    ext g
    refine ⟨fun _ => trivial, fun _ => ⟨fun a => if ha : a ∈ [x, x] then g ⟨a, ha⟩ else true, ?_, ?_⟩⟩
    · have hy : (⟨2, by decide⟩ : Atom) ∉ [x, x] := by decide
      simp only [f, Formula.eval, Formula.evals, Connective.apply, hy, ↓reduceDIte]
      simp
    · intro a
      simp only [a.2, ↓reduceDIte]
  have hcard : Fintype.card ({a // a ∈ [x, x]} → Bool) = 2 := by decide
  rw [h.length, hcount (by decide), hall, Set.ncard_univ, Nat.card_eq_fintype_card, hcard]
  rfl

end Session

end Clausal
