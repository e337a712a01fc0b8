import Clausal.Proofs.Encoding.Extension
import Clausal.Proofs.Encoding.Unknown
import Clausal.Proofs.Search.Oracle
import Clausal.Session

/-!
# Sessions with the built-in oracle

A formula that keeps the rule of encodings is encoded, and the instance has a model exactly when the
formula has one. So what the search finds of the instance is right about the formula.
-/

namespace Clausal

/-! ## Values of atoms -/

/-- The values of atoms by their index. -/
def valuesOf (v : Atom → Bool) (i : Nat) : Bool := if h : 0 < i then v ⟨i, h⟩ else false

theorem valuesOf_index (v : Atom → Bool) (a : Atom) : valuesOf v a.index = v a :=
  dif_pos a.index_pos

theorem Formula.evalIn_restrict (m : Model) (f : Formula) :
    f.evalIn (m.restrict f.atoms) = f.evalIn m := by
  apply eval_congr f
  intro a ha
  rw [Bool.eq_iff_iff, Model.valueOf_eq_true_iff, Model.valueOf_eq_true_iff,
    Model.mem_trueAtoms_restrict, atoms, Ordered.mem_ofList]
  exact ⟨fun h => h.2, fun h => ⟨ha, h⟩⟩

/-! ## Encodings -/

namespace Supply

variable {s t : Supply} {f : Formula} {e : Encoding}

theorem exists_encode_eq_ok (hops : f.hasOperands = true)
    (hatoms : ∀ a ∈ f.leaves, a.index ≤ s.mark)
    (hroom : s.mark + f.connectiveCount ≤ atomMax) :
    ∃ e t, s.encode f = (.ok e, t) ∧ t.mark = s.mark + f.connectiveCount := by
  have hrule := (Formula.find?_places_eq_none_iff s.mark 0 f).mpr ⟨hops, hatoms⟩
  obtain ⟨t, ht, hmark, -⟩ := encode_of_find?_eq_none (find?_fails_eq_none hroom hrule)
  exact ⟨_, t, ht, hmark⟩

/-- Where the atoms run out nothing but this can be wrong with a formula that keeps the rule. -/
theorem encode_eq_atomsExhausted (hops : f.hasOperands = true)
    (hleaves : ∀ a ∈ f.leaves, a.index ≤ s.mark)
    (hroom : atomMax < s.mark + f.connectiveCount) :
    ∃ t, s.encode f = (.error (.supply .atomsExhausted), t) := by
  have hrule := (Formula.find?_places_eq_none_iff s.mark 0 f).mpr ⟨hops, hleaves⟩
  rw [List.find?_eq_none] at hrule
  cases hf : (f.places 0).find? (Place.fails s.mark) with
  | none =>
    obtain ⟨t, -, hmark, -⟩ := encode_of_find?_eq_none hf
    have := t.mark_le
    omega
  | some p =>
    obtain ⟨t, ht, -⟩ := encode_of_find?_eq_some hf
    have hfails := List.find?_some hf
    have hkeeps := hrule p (List.mem_of_find?_eq_some hf)
    refine ⟨t, ht.trans ?_⟩
    obtain ⟨before, check⟩ := p
    cases check with
    | fresh => rfl
    | operand => exact absurd rfl hkeeps
    | known a =>
      simp only [Place.fails, decide_eq_true_eq] at hfails
      simp only [Place.offends, decide_eq_true_eq] at hkeeps
      omega

namespace Encodes

theorem not_hasZero (he : s.Encodes f e t) {c : Clause} (hc : c ∈ e.cnf.clauses) :
    ¬ Search.HasZero c := by
  intro hzero
  obtain ⟨l, hl, h0⟩ := hzero
  have := (he.range_of_mem hc l hl).1
  omega

/-- A model of the instance is a model of the formula. -/
theorem eval_of_satisfiedBy (he : s.Encodes f e t) {w : Nat → Bool}
    (hw : e.cnf.satisfiedBy w = true) : (f.eval fun a => w a.index) = true := by
  obtain ⟨hdef, hroot⟩ := he.satisfiedBy_iff.mp hw
  rw [← he.trueUnder_root hdef, hroot]

/-- A valuation that makes the formula true extends to a model of the instance. -/
theorem exists_satisfiedBy (he : s.Encodes f e t) (hatoms : ∀ a ∈ f.leaves, a.index ≤ s.mark)
    {v : Atom → Bool} (hv : f.eval v = true) :
    ∃ w, e.cnf.satisfiedBy w = true ∧ ∀ a : Atom, a.index ≤ s.mark → w a.index = v a := by
  have hdef : e.DefinedBy (f.extend s.mark (valuesOf v)) :=
    he.definedBy_iff.mpr (Formula.satisfiedAll_definitions_extend hatoms)
  refine ⟨_, he.satisfiedBy_iff.mpr ⟨hdef, ?_⟩, fun a ha => ?_⟩
  · rw [he.trueUnder_root hdef, Formula.eval_extend hatoms, ← hv]
    exact Formula.eval_congr f fun a _ => valuesOf_index v a
  · rw [Formula.extend_of_le ha, valuesOf_index]

end Encodes

end Supply

/-! ## Solving a formula -/

namespace Session

theorem encodeAndSolve_of_encode_eq_ok {σ : Type} (s : Session σ) {f : Formula} {e : Encoding}
    {t : Supply} (h : s.supply.encode f = (.ok e, t)) :
    (s.encodeAndSolve f).1 = (s.oracle.findModel e.cnf s.state).1 ∧
      (s.encodeAndSolve f).2.supply = t := by
  unfold encodeAndSolve encode
  rw [h]
  exact ⟨rfl, rfl⟩

/-- An answer about a formula is right, with the supply at the mark `n` afterwards. -/
inductive IsAnswer (f : Formula) (config : Config) (n : Nat) : Except Error (Option Model) → Prop
  | model {m : Model} (heval : f.evalIn m = true) (hrestrict : f.evalIn (m.restrict f.atoms) = true)
      (hcount : m.atomCount = n) : IsAnswer f config n (.ok (some m))
  | none (hno : ∀ v, f.eval v = false) : IsAnswer f config n (.ok none)
  | timeout (hlimit : config.timeLimit.value ≠ .zero) : IsAnswer f config n (.error .timeout)

theorem isAnswer_of_isFound {s t : Supply} {f : Formula} {e : Encoding} {config : Config}
    {result : Except Error (Option Model)} (he : s.Encodes f e t)
    (hatoms : ∀ a ∈ f.leaves, a.index ≤ s.mark) (h : Search.IsFound e.cnf config result) :
    IsAnswer f config t.mark result := by
  cases h with
  | @model m hcount hmodel =>
    have heval : f.evalIn m = true := he.eval_of_satisfiedBy hmodel
    exact .model heval ((Formula.evalIn_restrict m f).trans heval) (hcount.trans he.atomCount)
  | none hno =>
    refine .none fun v => ?_
    rw [Bool.eq_false_iff]
    intro hv
    obtain ⟨w, hw, -⟩ := he.exists_satisfiedBy hatoms hv
    rw [hno w] at hw
    cases hw
  | timeout hlimit => exact .timeout hlimit

/-- Without a time limit there is an answer. -/
theorem IsAnswer.exists_model_iff {f : Formula} {config : Config} {n : Nat}
    {result : Except Error (Option Model)} (h : IsAnswer f config n result)
    (hlimit : config.timeLimit.value = .zero) :
    (∃ m, result = .ok (some m)) ↔ ∃ v, f.eval v = true := by
  cases h with
  | @model m heval hrestrict hcount => exact ⟨fun _ => ⟨m.valueOf, heval⟩, fun _ => ⟨m, rfl⟩⟩
  | none hno =>
    constructor
    · intro hmodel
      obtain ⟨m, hm⟩ := hmodel
      cases hm
    · intro hsat
      obtain ⟨v, hv⟩ := hsat
      rw [hno v] at hv
      cases hv
  | timeout h => exact absurd hlimit h

/-- The answer about a formula whose connectives have operands and whose atoms are known is right,
and without a time limit there is a model exactly when the formula is satisfiable. -/
theorem encodeAndSolve_right (supply : Supply) (clock : Search.Clock) (state : Search)
    (f : Formula) (hops : f.hasOperands = true)
    (hatoms : ∀ a ∈ f.leaves, a.index ≤ supply.mark)
    (hroom : supply.mark + f.connectiveCount ≤ atomMax) :
    let r := (Session.mk supply (Search.oracle clock) state).encodeAndSolve f
    r.2.supply.mark = supply.mark + f.connectiveCount ∧
      IsAnswer f state.config r.2.supply.mark r.1 ∧
      (state.config.timeLimit.value = .zero →
        ((∃ m, r.1 = .ok (some m)) ↔ ∃ v, f.eval v = true)) := by
  intro r
  obtain ⟨e, t, ht, hmark⟩ := Supply.exists_encode_eq_ok hops hatoms hroom
  have he := Supply.encodes_of_eq_ok ht
  obtain ⟨hresult, hsupply⟩ :=
    encodeAndSolve_of_encode_eq_ok (Session.mk supply (Search.oracle clock) state) ht
  have hfound := Search.isFound_findModel (fun c hc => he.not_hasZero hc) clock state
  have hanswer : IsAnswer f state.config r.2.supply.mark r.1 := by
    rw [hsupply, hresult]
    exact isAnswer_of_isFound he hatoms hfound
  exact ⟨(congrArg Supply.mark hsupply).trans hmark, hanswer, hanswer.exists_model_iff⟩

/-- Of one atom and the negation of another, the model found makes the first atom true and the other
false. -/
theorem encodeAndSolve_conjunction :
    let supply : Supply := ⟨2, 0, by decide⟩
    let f : Formula := .node .and [.var ⟨1, by decide⟩, .neg (.var ⟨2, by decide⟩)]
    let session : Session Search :=
      ⟨supply, Search.oracle fun _ => .zero, Search.new .default 0⟩
    (f.hasOperands = true ∧ (∀ a ∈ f.leaves, a.index ≤ supply.mark) ∧
        supply.mark + f.connectiveCount ≤ atomMax) ∧
      ∃ m, (session.encodeAndSolve f).1 = .ok (some m) ∧ m.value 1 = true ∧
        m.value 2 = false := by
  intro supply f session
  have hops : f.hasOperands = true := rfl
  have hatoms : ∀ a ∈ f.leaves, a.index ≤ supply.mark := by decide
  have hroom : supply.mark + f.connectiveCount ≤ atomMax := by decide
  have hright := encodeAndSolve_right supply (fun _ => .zero) (Search.new .default 0) f hops
    hatoms hroom
  obtain ⟨m, hm⟩ := (hright.2.2 rfl).mpr ⟨fun a => a.index == 1, rfl⟩
  have hanswer := hright.2.1
  rw [hm] at hanswer
  cases hanswer with
  | model heval hrestrict hcount =>
    simp [f, Formula.evalIn, Formula.eval, Formula.evals, Connective.apply, Model.valueOf] at heval
    exact ⟨⟨hops, hatoms, hroom⟩, m, hm, heval⟩

end Session

end Clausal
