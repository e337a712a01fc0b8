import Clausal.Proofs.Encoding.Outcome

/-!
# The connectives of an encoding

The connectives of a formula are completed from left to right, each after those of its operands, and
each is given the next atom. An encoding that fails has completed the connectives before the place
where it fails, and no others.
-/

namespace Clausal

/-- A connective that has been completed. -/
structure Gate where
  op : Connective
  /-- The literals of the operands, from left to right. -/
  operands : List Literal
  /-- The literal that the connective was given. -/
  literal : Literal
deriving DecidableEq

/-- The clauses that define the literal. -/
def Gate.clauses (g : Gate) : List Clause := g.op.definition g.literal g.operands

/-- The literal has an atom of its own, above those of the operands. -/
def Gate.IsAbove (g : Gate) : Prop := ∀ l ∈ g.operands, l.atom < g.literal.atom

/-- The asserting literals of the `k` atoms after the mark `n`. -/
def asserting (n k : Nat) : List Literal := (List.range' (n + 1) k).map fun i => ⟨i, true⟩

theorem asserting_add (n j k : Nat) :
    asserting n (j + k) = asserting n j ++ asserting (n + j) k := by
  rw [asserting, asserting, asserting, ← List.map_append, Nat.add_right_comm n j,
    List.range'_append_1]

namespace Encoder

/-- The connective that is completed when the literals of its operands are known, if it is. -/
def gateOf (e : Encoder) (op : Connective) (operands : List Literal) : List Gate :=
  match e.define op operands with
  | (.error _, _) => []
  | (.ok z, _) => [⟨op, operands, z⟩]

mutual

/-- The connectives that are completed in the course of encoding a formula, in this order. -/
def gates : Formula → Encoder → List Gate
  | .var _, _ => []
  | .neg f, e => gates f e
  | .node op fs, e =>
    if fs.isEmpty then []
    else
      gatesOf fs e ++
        match literals fs e with
        | (.error _, _) => []
        | (.ok ls, e) => e.gateOf op ls

def gatesOf : List Formula → Encoder → List Gate
  | [], _ => []
  | f :: fs, e =>
    gates f e ++
      match literal f e with
      | (.error _, _) => []
      | (.ok _, e) => gatesOf fs e

end

end Encoder

/-- The connectives that an encoding completes, whether it succeeds or fails. -/
def Supply.gates (s : Supply) (f : Formula) : List Gate := Encoder.gates f ⟨s, Cnf.empty⟩

namespace Formula

mutual

/-- All connectives of a formula whose encoding begins at the mark `n`, from left to right and each
after those of its operands. -/
def gates : Nat → Formula → List Gate
  | _, var _ => []
  | n, neg f => gates n f
  | n, node op fs => gatesOf n fs ++ [⟨op, labelsOf n fs, ⟨n + connectiveCountOf fs + 1, true⟩⟩]

def gatesOf : Nat → List Formula → List Gate
  | _, [] => []
  | n, f :: fs => gates n f ++ gatesOf (n + f.connectiveCount) fs

end

mutual

theorem length_gates : ∀ (n : Nat) (f : Formula), (f.gates n).length = f.connectiveCount
  | _, var _ => rfl
  | n, neg f => length_gates n f
  | n, node op fs => by
    rw [gates, List.length_append, length_gatesOf, connectiveCount, Nat.add_comm]
    rfl

theorem length_gatesOf : ∀ (n : Nat) (fs : List Formula),
    (gatesOf n fs).length = connectiveCountOf fs
  | _, [] => rfl
  | n, f :: fs => by
    rw [gatesOf, List.length_append, length_gates, length_gatesOf, connectiveCountOf]

end

mutual

/-- The connectives take the atoms after the mark one by one. -/
theorem map_literal_gates : ∀ (n : Nat) (f : Formula),
    (f.gates n).map Gate.literal = asserting n f.connectiveCount
  | _, var _ => rfl
  | n, neg f => map_literal_gates n f
  | n, node op fs => by
    rw [gates, List.map_append, map_literal_gatesOf, connectiveCount, Nat.add_comm 1, asserting_add]
    rfl

theorem map_literal_gatesOf : ∀ (n : Nat) (fs : List Formula),
    (gatesOf n fs).map Gate.literal = asserting n (connectiveCountOf fs)
  | _, [] => rfl
  | n, f :: fs => by
    rw [gatesOf, List.map_append, map_literal_gates, map_literal_gatesOf, connectiveCountOf,
      asserting_add]

end

mutual

theorem flatMap_clauses_gates : ∀ (n : Nat) (f : Formula),
    (f.gates n).flatMap Gate.clauses = f.definitions n
  | _, var _ => rfl
  | n, neg f => flatMap_clauses_gates n f
  | n, node op fs => by
    rw [gates, List.flatMap_append, flatMap_clauses_gatesOf, definitions, List.flatMap_singleton]
    rfl

theorem flatMap_clauses_gatesOf : ∀ (n : Nat) (fs : List Formula),
    (gatesOf n fs).flatMap Gate.clauses = definitionsOf n fs
  | _, [] => rfl
  | n, f :: fs => by
    rw [gatesOf, List.flatMap_append, flatMap_clauses_gates, flatMap_clauses_gatesOf, definitionsOf]

end

mutual

theorem isAbove_of_mem_gates (h : Nat) : ∀ (done : Nat) (f : Formula),
    (f.places done).find? (Place.fails h) = none → ∀ g ∈ f.gates (h + done), g.IsAbove
  | _, var _, _, g, hg => absurd hg List.not_mem_nil
  | done, neg f, hf, g, hg => isAbove_of_mem_gates h done f hf g hg
  | done, node op fs, hf, g, hg => by
    rw [places] at hf
    by_cases hempty : fs.isEmpty = true
    · rw [if_pos hempty] at hf
      simp [Place.fails] at hf
    · rw [if_neg hempty, List.find?_append, Option.or_eq_none_iff] at hf
      rw [gates, List.mem_append, List.mem_singleton] at hg
      rcases hg with hg | rfl
      · exact isAbove_of_mem_gatesOf h done fs hf.1 g hg
      · intro l hl
        have := range_labelsOf h done fs hf.1 l hl
        simp only
        omega

theorem isAbove_of_mem_gatesOf (h : Nat) : ∀ (done : Nat) (fs : List Formula),
    (placesOf done fs).find? (Place.fails h) = none → ∀ g ∈ gatesOf (h + done) fs, g.IsAbove
  | _, [], _, g, hg => absurd hg List.not_mem_nil
  | done, f :: fs, hf, g, hg => by
    rw [placesOf, List.find?_append, Option.or_eq_none_iff] at hf
    rw [gatesOf, List.mem_append, Nat.add_assoc] at hg
    rcases hg with hg | hg
    · exact isAbove_of_mem_gates h done f hf.1 g hg
    · exact isAbove_of_mem_gatesOf h (done + f.connectiveCount) fs hf.2 g hg

end

end Formula

/-! ## The connectives completed -/

/-- Which of the connectives `all` of some part are completed when its encoding begins at the mark
`h`, with `done` connectives completed before: all of them if no place fails, and otherwise those
before the first place that fails. -/
inductive Completed (h done : Nat) (places : List Place) (all : List Gate) : List Gate → Prop
  | complete (hfind : places.find? (Place.fails h) = none) : Completed h done places all all
  | before {p : Place} {gs : List Gate} (hfind : places.find? (Place.fails h) = some p)
      (hstart : gs <+: all) (hlength : done + gs.length = p.before) :
      Completed h done places all gs

namespace Completed

variable {h done : Nat} {ps qs : List Place} {all more gs : List Gate}

/-- Where all connectives of one part are completed, those of the next are counted on from there. -/
theorem append (hps : ps.find? (Place.fails h) = none)
    (hqs : Completed h (done + all.length) qs more gs) :
    Completed h done (ps ++ qs) (all ++ more) (all ++ gs) := by
  have hfind : (ps ++ qs).find? (Place.fails h) = qs.find? (Place.fails h) := by
    rw [List.find?_append, hps, Option.none_or]
  cases hqs with
  | complete hfind' => exact .complete (hfind.trans hfind')
  | before hfind' hstart hlength =>
    refine .before (hfind.trans hfind') ((List.prefix_append_right_inj all).mpr hstart) ?_
    rw [List.length_append, ← Nat.add_assoc, hlength]

theorem eq_all (hgs : Completed h done ps all gs) (hps : ps.find? (Place.fails h) = none) :
    gs = all := by
  cases hgs with
  | complete => rfl
  | before hfind => cases hfind.symm.trans hps

/-- Where one part fails, no connective of the next is completed. -/
theorem append_of_fails {p : Place} (hps : ps.find? (Place.fails h) = some p)
    (hgs : Completed h done ps all gs) : Completed h done (ps ++ qs) (all ++ more) (gs ++ []) := by
  cases hgs with
  | complete hfind => cases hfind.symm.trans hps
  | before hfind hstart hlength =>
    rw [List.append_nil]
    refine .before ?_ (hstart.trans (List.prefix_append all more)) hlength
    rw [List.find?_append, hfind, Option.some_or]

end Completed

namespace Encoder

variable {h done : Nat}

/-- At a place that fails, and at one without a connective, nothing is completed. -/
theorem completed_nil (check : Check) {all : List Gate}
    (hall : Place.fails h ⟨done, check⟩ = false → all = []) :
    Completed h done [⟨done, check⟩] all [] := by
  cases hp : Place.fails h ⟨done, check⟩ with
  | false =>
    rw [hall hp]
    exact .complete (by simp [hp])
  | true => exact .before (p := ⟨done, check⟩) (by simp [hp]) List.nil_prefix rfl

theorem completed_define (op : Connective) {ls : List Literal} {e : Encoder}
    (hm : e.supply.mark = h + done) (hls : ∀ l ∈ ls, 0 < l.atom ∧ l.atom ≤ h + done) :
    Completed h done [⟨done, .fresh⟩] [⟨op, ls, ⟨h + done + 1, true⟩⟩] (e.gateOf op ls) := by
  have hdefine := define_outcome op hm hls
  unfold gateOf
  generalize e.define op ls = r at hdefine ⊢
  cases hdefine with
  | ok hfind => exact .complete hfind
  | @error p e' hfind =>
    have hp := List.mem_singleton.mp (List.mem_of_find?_eq_some hfind)
    exact .before hfind List.nil_prefix (by rw [hp]; rfl)

mutual

-- By the outcome of the operands the encoder at the connective, and at the next operand, is one that
-- stands at the mark where the connectives of that part are counted from.
theorem completed_gates (h : Nat) : ∀ (done : Nat) (f : Formula) (e : Encoder),
    e.supply.mark = h + done →
      Completed h done (f.places done) (f.gates (h + done)) (gates f e)
  | _, .var _, _, _ => completed_nil _ fun _ => rfl
  | done, .neg f, e, hm => completed_gates h done f e hm
  | done, .node op fs, e, hm => by
    rw [gates, Formula.places]
    by_cases hempty : fs.isEmpty = true
    · rw [if_pos hempty, if_pos hempty]
      exact completed_nil _ fun hpass => by cases hpass
    · rw [if_neg hempty, if_neg hempty, Formula.gates]
      have hgates := completed_gatesOf h done fs e hm
      have hfs := literals_outcome h done fs e hm
      generalize literals fs e = r at hfs ⊢
      cases hfs with
      | @ok e' hfind hmark hgen hcnf =>
        have hdefine := completed_define op hmark (Formula.range_labelsOf h done fs hfind)
        rw [← Formula.length_gatesOf (h + done) fs, ← Nat.add_assoc] at hdefine
        rw [hgates.eq_all hfind, ← Formula.length_gatesOf (h + done) fs]
        exact .append hfind hdefine
      | error hfind hmark hgen => exact hgates.append_of_fails hfind

theorem completed_gatesOf (h : Nat) : ∀ (done : Nat) (fs : List Formula) (e : Encoder),
    e.supply.mark = h + done →
      Completed h done (Formula.placesOf done fs) (Formula.gatesOf (h + done) fs) (gatesOf fs e)
  | _, [], _, _ => .complete rfl
  | done, f :: fs, e, hm => by
    rw [gatesOf, Formula.placesOf, Formula.gatesOf]
    have hgates := completed_gates h done f e hm
    have hf := literal_outcome h done f e hm
    generalize literal f e = r at hf ⊢
    cases hf with
    | @ok e' hfind hmark hgen hcnf =>
      have hfs := completed_gatesOf h (done + f.connectiveCount) fs e' hmark
      rw [← Formula.length_gates (h + done) f, ← Nat.add_assoc] at hfs
      rw [hgates.eq_all hfind, ← Formula.length_gates (h + done) f]
      exact .append hfind hfs
    | error hfind hmark hgen => exact hgates.append_of_fails hfind

end

end Encoder

namespace Supply

variable (s : Supply) (f : Formula)

/-- An encoding completes all connectives, or those before the first place that fails. -/
theorem completed_gates : Completed s.mark 0 (f.places 0) (f.gates s.mark) (s.gates f) :=
  Encoder.completed_gates s.mark 0 f ⟨s, Cnf.empty⟩ rfl

end Supply

end Clausal
