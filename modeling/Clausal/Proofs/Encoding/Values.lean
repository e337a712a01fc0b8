import Clausal.Proofs.Encoding.Outcome

/-!
# Values of connectives

The clauses of a connective say that its atom has the value of the connective on its operands. So
the definitions of a formula are satisfied exactly when the atoms of its connectives have the values
of the connectives, and the label of the formula then has the value of the formula. No assumption on
the atoms is needed for this.
-/

namespace Clausal

variable {w : Nat → Bool}

/-! ## One connective -/

theorem Clause.satisfiedAll_singleton {c : Clause} :
    SatisfiedAll w [c] ↔ c.satisfiedBy w = true := by
  simp [SatisfiedAll]

/-- The clauses of a connective are satisfied when its literal has the value of the connective. -/
theorem Connective.satisfiedAll_definition_iff (op : Connective) (z : Literal)
    (ls : List Literal) :
    Clause.SatisfiedAll w (op.definition z ls) ↔
      z.trueUnder w = op.apply (ls.map (Literal.trueUnder w)) := by
  cases op with
  | and =>
    rw [definition, Clause.satisfiedAll_append, Clause.satisfiedAll_singleton]
    cases hz : z.trueUnder w <;>
      simp [Clause.SatisfiedAll, Clause.satisfiedBy, apply, Literal.trueUnder_neg, hz]
  | or =>
    rw [definition, Clause.satisfiedAll_append, Clause.satisfiedAll_singleton]
    cases hz : z.trueUnder w <;>
      simp [Clause.SatisfiedAll, Clause.satisfiedBy, apply, Literal.trueUnder_neg, hz]

/-! ## All connectives -/

namespace Formula

mutual

/-- The values of the connectives of a formula, in the order in which they are completed. -/
def auxiliaries (v : Atom → Bool) : Formula → List Bool
  | var _ => []
  | neg f => f.auxiliaries v
  | node op fs => auxiliariesOf v fs ++ [op.apply (evals v fs)]

def auxiliariesOf (v : Atom → Bool) : List Formula → List Bool
  | [] => []
  | f :: fs => f.auxiliaries v ++ auxiliariesOf v fs

end

mutual

theorem length_auxiliaries (v : Atom → Bool) : ∀ f : Formula,
    (f.auxiliaries v).length = f.connectiveCount
  | var _ => rfl
  | neg f => length_auxiliaries v f
  | node op fs => by
    rw [auxiliaries, List.length_append, length_auxiliariesOf v fs, connectiveCount]
    exact Nat.add_comm _ _

theorem length_auxiliariesOf (v : Atom → Bool) : ∀ fs : List Formula,
    (auxiliariesOf v fs).length = connectiveCountOf fs
  | [] => rfl
  | f :: fs => by
    rw [auxiliariesOf, List.length_append, length_auxiliaries v f, length_auxiliariesOf v fs,
      connectiveCountOf]

end

mutual

/-- Where its definitions are satisfied, the label of a formula has the value of the formula. -/
theorem trueUnder_label : ∀ (n : Nat) (f : Formula),
    Clause.SatisfiedAll w (f.definitions n) →
      (f.label n).trueUnder w = f.eval fun a => w a.index
  | n, var a, _ => by
    show (w a.index == true) = w a.index
    simp
  | n, neg f, hw => by
    rw [label, Literal.trueUnder_neg, trueUnder_label n f hw, eval]
  | n, node op fs, hw => by
    rw [definitions, Clause.satisfiedAll_append] at hw
    rw [label, eval, (op.satisfiedAll_definition_iff _ _).mp hw.2,
      map_trueUnder_labelsOf n fs hw.1]

theorem map_trueUnder_labelsOf : ∀ (n : Nat) (fs : List Formula),
    Clause.SatisfiedAll w (definitionsOf n fs) →
      (labelsOf n fs).map (Literal.trueUnder w) = evals (fun a => w a.index) fs
  | _, [], _ => rfl
  | n, f :: fs, hw => by
    rw [definitionsOf, Clause.satisfiedAll_append] at hw
    rw [labelsOf, List.map_cons, evals, trueUnder_label n f hw.1,
      map_trueUnder_labelsOf _ fs hw.2]

end

/-- The values of the atoms that connectives take, `k` of them from the mark `n` on. -/
def valuesFrom (w : Nat → Bool) (n k : Nat) : List Bool := (List.range' (n + 1) k).map w

theorem valuesFrom_add (w : Nat → Bool) (n k m : Nat) :
    valuesFrom w n (k + m) = valuesFrom w n k ++ valuesFrom w (n + k) m := by
  rw [valuesFrom, valuesFrom, valuesFrom, ← List.map_append, Nat.add_right_comm,
    List.range'_append_1]

theorem length_valuesFrom (w : Nat → Bool) (n k : Nat) : (valuesFrom w n k).length = k := by
  simp [valuesFrom]

theorem append_eq_append_iff {xs xs' ys ys' : List Bool} (h : xs.length = xs'.length) :
    xs ++ ys = xs' ++ ys' ↔ xs = xs' ∧ ys = ys' := by
  constructor
  · intro heq
    exact List.append_inj heq h
  · intro heq
    obtain ⟨rfl, rfl⟩ := heq
    rfl

mutual

/-- The definitions of a formula are satisfied when the atoms of its connectives have the values of
these. -/
theorem satisfiedAll_definitions_iff : ∀ (n : Nat) (f : Formula),
    Clause.SatisfiedAll w (f.definitions n) ↔
      valuesFrom w n f.connectiveCount = f.auxiliaries fun a => w a.index
  | n, var a => by simp [definitions, connectiveCount, valuesFrom, auxiliaries, Clause.SatisfiedAll]
  | n, neg f => satisfiedAll_definitions_iff n f
  | n, node op fs => by
    have hfs := satisfiedAll_definitionsOf_iff n fs
    have hlast : valuesFrom w (n + connectiveCountOf fs) 1 = [w (n + connectiveCountOf fs + 1)] :=
      rfl
    have hlength := (length_valuesFrom w n _).trans
      (length_auxiliariesOf (fun a => w a.index) fs).symm
    -- the atom of the connective comes after those of its operands
    rw [definitions, Clause.satisfiedAll_append, connectiveCount, Nat.add_comm 1, valuesFrom_add,
      hlast, auxiliaries, append_eq_append_iff hlength, ← hfs]
    apply and_congr_right
    intro hw
    rw [op.satisfiedAll_definition_iff, map_trueUnder_labelsOf n fs hw]
    simp [Literal.trueUnder]

theorem satisfiedAll_definitionsOf_iff : ∀ (n : Nat) (fs : List Formula),
    Clause.SatisfiedAll w (definitionsOf n fs) ↔
      valuesFrom w n (connectiveCountOf fs) = auxiliariesOf (fun a => w a.index) fs
  | n, [] => by
    simp [definitionsOf, connectiveCountOf, valuesFrom, auxiliariesOf, Clause.SatisfiedAll]
  | n, f :: fs => by
    have hf := satisfiedAll_definitions_iff n f
    have hfs := satisfiedAll_definitionsOf_iff (n + f.connectiveCount) fs
    have hlength := (length_valuesFrom w n _).trans
      (length_auxiliaries (fun a => w a.index) f).symm
    rw [definitionsOf, Clause.satisfiedAll_append, connectiveCountOf, valuesFrom_add,
      auxiliariesOf, append_eq_append_iff hlength, hf, hfs]

end

end Formula

end Clausal
