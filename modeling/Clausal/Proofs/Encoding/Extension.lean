import Clausal.Proofs.Encoding.Models
import Mathlib.Data.Set.Function

/-!
# Extension of valuations

A valuation of the atoms that were handed out before an encoding extends in exactly one way to the
atoms that the connectives take, if the definitions are to be satisfied. With the label of the
formula true as well, the models of the instance are in bijection with those of the formula.
-/

namespace Clausal

variable {v w : Nat → Bool} {n : Nat}

namespace Formula

mutual

theorem auxiliaries_congr {v w : Atom → Bool} : ∀ f : Formula,
    (∀ a ∈ f.leaves, v a = w a) → f.auxiliaries v = f.auxiliaries w
  | var a, _ => rfl
  | neg f, h => auxiliaries_congr f h
  | node op fs, h => by
    rw [auxiliaries, auxiliaries, auxiliariesOf_congr fs h, evals_congr fs h]

theorem auxiliariesOf_congr {v w : Atom → Bool} : ∀ fs : List Formula,
    (∀ a ∈ leavesOf fs, v a = w a) → auxiliariesOf v fs = auxiliariesOf w fs
  | [], _ => rfl
  | f :: fs, h => by
    rw [auxiliariesOf, auxiliariesOf,
      auxiliaries_congr f fun a ha => h a (List.mem_append_left _ ha),
      auxiliariesOf_congr fs fun a ha => h a (List.mem_append_right _ ha)]

end

/-- The values of `v` up to the mark `n`, and from there on those of the connectives. -/
def extend (n : Nat) (f : Formula) (v : Nat → Bool) (i : Nat) : Bool :=
  if i ≤ n then v i else (f.auxiliaries fun a => v a.index).getD (i - n - 1) false

theorem extend_of_le {f : Formula} {i : Nat} (hi : i ≤ n) : f.extend n v i = v i := if_pos hi

theorem eval_extend {f : Formula} (hf : ∀ a ∈ f.leaves, a.index ≤ n) :
    (f.eval fun a => f.extend n v a.index) = f.eval fun a => v a.index :=
  eval_congr f fun a ha => extend_of_le (hf a ha)

theorem valuesFrom_extend (n : Nat) (f : Formula) (v : Nat → Bool) :
    valuesFrom (f.extend n v) n f.connectiveCount = f.auxiliaries fun a => v a.index := by
  have hlength := length_auxiliaries (fun a => v a.index) f
  apply List.ext_getElem ((length_valuesFrom _ _ _).trans hlength.symm)
  intro i hi hi'
  have hsub : n + 1 + i - n - 1 = i := by omega
  have hlt : ¬ n + 1 + i ≤ n := by omega
  simp [valuesFrom, extend, hsub, hlt, hi']

theorem satisfiedAll_definitions_extend {f : Formula} (hf : ∀ a ∈ f.leaves, a.index ≤ n) :
    Clause.SatisfiedAll (f.extend n v) (f.definitions n) := by
  rw [satisfiedAll_definitions_iff, valuesFrom_extend]
  exact (auxiliaries_congr f fun a ha => extend_of_le (hf a ha)).symm

/-- Where its definitions are satisfied, the values up to the mark decide all others. -/
theorem eq_extend_of_satisfiedAll {f : Formula} (hf : ∀ a ∈ f.leaves, a.index ≤ n)
    (hw : Clause.SatisfiedAll w (f.definitions n)) (hv : ∀ i, 0 < i → i ≤ n → w i = v i) {i : Nat}
    (hpos : 0 < i) (hi : i ≤ n + f.connectiveCount) : w i = f.extend n v i := by
  by_cases hin : i ≤ n
  · rw [extend_of_le hin, hv i hpos hin]
  -- above the mark both are the value of the connective that took the atom
  · rw [satisfiedAll_definitions_iff,
      auxiliaries_congr f fun a ha => hv a.index a.index_pos (hf a ha)] at hw
    obtain ⟨j, rfl⟩ : ∃ j, i = n + 1 + j := ⟨i - n - 1, by omega⟩
    have hj := congrArg (fun values => values.getD j false) hw
    have hlt : j < f.connectiveCount := by omega
    have hsub : n + 1 + j - n - 1 = j := by omega
    simp only [valuesFrom] at hj
    rw [extend, if_neg hin, hsub, ← hj]
    simp [hlt]

theorem definitions_eq_nil : ∀ f : Formula, f.connectiveCount = 0 → f.definitions n = []
  | var a, _ => rfl
  | neg f, h => definitions_eq_nil f h
  | node op fs, h => by
    rw [connectiveCount] at h
    omega

end Formula

/-! ## Encodings -/

namespace Supply

variable {s t : Supply} {f : Formula} {e : Encoding}

namespace Encodes

theorem definedBy_extend (he : s.Encodes f e t) (hf : ∀ a ∈ f.leaves, a.index ≤ s.mark)
    (v : Valuation s.mark) :
    e.DefinedBy (Valuation.ofValues t.mark (f.extend s.mark v.value)).value := by
  rw [he.definedBy_iff]
  intro c hc
  have hsat := Formula.satisfiedAll_definitions_extend (v := v.value) hf c hc
  rw [← hsat]
  apply Clause.satisfiedBy_congr
  intro l hl
  obtain ⟨hpos, hle⟩ := (he.isDefinition hc).range l hl
  exact Valuation.value_ofValues _ hpos hle

/-- The extension of a valuation restricts to it. -/
theorem restrict_extend (he : s.Encodes f e t) (v : Valuation s.mark) :
    (Valuation.ofValues t.mark (f.extend s.mark v.value)).restrict s.mark = v := by
  have hmark := he.mark
  apply Valuation.ext_value
  intro i hpos hi
  rw [Valuation.value_restrict _ hpos hi, Valuation.value_ofValues _ hpos (by omega),
    Formula.extend_of_le hi]

theorem eq_extend (he : s.Encodes f e t) (hf : ∀ a ∈ f.leaves, a.index ≤ s.mark)
    {w : Valuation t.mark} (hw : e.DefinedBy w.value) :
    w = Valuation.ofValues t.mark (f.extend s.mark (w.restrict s.mark).value) := by
  have hmark := he.mark
  apply Valuation.ext_value
  intro i hpos hi
  rw [Valuation.value_ofValues _ hpos hi]
  refine Formula.eq_extend_of_satisfiedAll hf (he.definedBy_iff.mp hw) (fun j hj hjn => ?_) hpos
    (by omega)
  exact (Valuation.value_restrict w hj hjn).symm

theorem existsUnique_restrict (he : s.Encodes f e t) (hf : ∀ a ∈ f.leaves, a.index ≤ s.mark)
    (v : Valuation s.mark) :
    ∃! w : Valuation t.mark, w.restrict s.mark = v ∧ e.DefinedBy w.value := by
  refine ⟨_, ⟨he.restrict_extend v, he.definedBy_extend hf v⟩, ?_⟩
  intro w hw
  obtain ⟨rfl, hw⟩ := hw
  exact he.eq_extend hf hw

theorem trueUnder_root_restrict (he : s.Encodes f e t) (hf : ∀ a ∈ f.leaves, a.index ≤ s.mark)
    {w : Valuation t.mark} (hw : e.DefinedBy w.value) :
    e.root.trueUnder w.value = f.eval fun a => (w.restrict s.mark).value a.index := by
  rw [he.trueUnder_root hw]
  apply Formula.eval_congr f
  intro a ha
  exact (Valuation.value_restrict w a.index_pos (hf a ha)).symm

theorem bijOn_restrict (he : s.Encodes f e t) (hf : ∀ a ∈ f.leaves, a.index ≤ s.mark) :
    Set.BijOn (fun w : Valuation t.mark => w.restrict s.mark)
      {w | e.cnf.satisfiedBy w.value = true} {v | (f.eval fun a => v.value a.index) = true} := by
  refine ⟨?_, ?_, ?_⟩
  · intro w hw
    obtain ⟨hdef, hroot⟩ := he.satisfiedBy_iff.mp hw
    rwa [he.trueUnder_root_restrict hf hdef] at hroot
  · intro w hw w' hw' heq
    have hdef := (he.satisfiedBy_iff.mp hw).1
    have hdef' := (he.satisfiedBy_iff.mp hw').1
    exact (he.existsUnique_restrict hf _).unique ⟨heq, hdef⟩ ⟨rfl, hdef'⟩
  · intro v hv
    obtain ⟨w, ⟨rfl, hdef⟩, -⟩ := he.existsUnique_restrict hf v
    refine ⟨w, he.satisfiedBy_iff.mpr ⟨hdef, ?_⟩, rfl⟩
    rw [he.trueUnder_root_restrict hf hdef]
    exact hv

theorem clauses_eq_of_connectiveCount (he : s.Encodes f e t) (h : f.connectiveCount = 0) :
    e.cnf.clauses = [[e.root]] := by
  rw [he.cnf, he.root]
  show (clausesOf s.mark f).clauses = _
  rw [clausesOf, Formula.definitions_eq_nil f h]
  rfl

end Encodes

/-- Valuations of the atoms known on entry extend uniquely to the atoms taken, and the root then
tells the value of the formula. -/
theorem models_extend_uniquely (hf : ∀ a ∈ f.leaves, a.index ≤ s.mark)
    (h : s.encode f = (.ok e, t)) :
    (∀ v : Valuation s.mark,
        ∃! w : Valuation t.mark, w.restrict s.mark = v ∧ e.DefinedBy w.value) ∧
      (∀ w : Valuation t.mark, e.DefinedBy w.value →
        e.root.trueUnder w.value = f.eval fun a => (w.restrict s.mark).value a.index) ∧
      Set.BijOn (fun w : Valuation t.mark => w.restrict s.mark)
        {w | e.cnf.satisfiedBy w.value = true} {v | (f.eval fun a => v.value a.index) = true} ∧
      (f.connectiveCount = 0 → e.cnf.clauses = [[e.root]]) := by
  have he := encodes_of_eq_ok h
  exact ⟨he.existsUnique_restrict hf, fun w hw => he.trueUnder_root_restrict hf hw,
    he.bijOn_restrict hf, he.clauses_eq_of_connectiveCount⟩

theorem models_extend_uniquely_conjunction :
    let s : Supply := ⟨2, 0, by decide⟩
    let f : Formula := .node .and [.var ⟨1, by decide⟩, .neg (.var ⟨2, by decide⟩)]
    ∃ (e : Encoding) (t : Supply), s.encode f = (.ok e, t) ∧ t.mark = 3 ∧ e.root = ⟨3, true⟩ ∧
      (∀ a ∈ f.leaves, a.index ≤ s.mark) ∧
      ∀ v : Valuation s.mark,
        ∃! w : Valuation t.mark, w.restrict s.mark = v ∧ e.DefinedBy w.value := by
  intro s f
  have hf : ∀ a ∈ f.leaves, a.index ≤ s.mark := by decide
  exact ⟨_, _, rfl, rfl, rfl, hf, (models_extend_uniquely hf rfl).1⟩

end Supply

end Clausal
