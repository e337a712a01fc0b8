import Clausal.Proofs.Encoding.Outcome
import Mathlib.Logic.Relation

/-!
# Double negations

A negation turns the literal of its operand round and takes no atom, so two of them that are nested
directly leave no trace: a formula and what is left of it without such pairs, wherever these stand
in it, are encoded alike, also where the encoding fails.
-/

namespace Clausal

open Relation

namespace Formula

/-- Removes one pair of directly nested negations, anywhere in the formula. -/
inductive Cancels : Formula → Formula → Prop
  | pair (f : Formula) : Cancels (neg (neg f)) f
  | neg {f g : Formula} (h : Cancels f g) : Cancels (neg f) (neg g)
  | node {f g : Formula} (op : Connective) (before after : List Formula) (h : Cancels f g) :
      Cancels (node op (before ++ f :: after)) (node op (before ++ g :: after))

/-- The formula negated, by taking a negation away where it has one. -/
def negated : Formula → Formula
  | var a => neg (var a)
  | neg f => f
  | node op fs => neg (node op fs)

mutual

/-- The formula without pairs of directly nested negations. -/
def reduced : Formula → Formula
  | var a => var a
  | neg f => f.reduced.negated
  | node op fs => node op (reducedOf fs)

def reducedOf : List Formula → List Formula
  | [] => []
  | f :: fs => f.reduced :: reducedOf fs

end

def isNegation : Formula → Bool
  | neg _ => true
  | _ => false

mutual

/-- Whether no negation is directly below a negation. -/
def isReduced : Formula → Bool
  | var _ => true
  | neg f => !f.isNegation && f.isReduced
  | node _ fs => isReducedOf fs

def isReducedOf : List Formula → Bool
  | [] => true
  | f :: fs => f.isReduced && isReducedOf fs

end

variable {f g : Formula}

/-! ## What is left -/

theorem isReduced_negated (h : f.isReduced = true) : f.negated.isReduced = true := by
  cases f with
  | var a => rfl
  | neg f =>
    rw [isReduced, Bool.and_eq_true] at h
    exact h.2
  | node op fs => exact h

/-- Negating twice gives back a formula in which no pair is left. -/
theorem negated_negated (h : f.isReduced = true) : f.negated.negated = f := by
  cases f with
  | var a => rfl
  | neg f =>
    cases f with
    | var a => rfl
    | neg f => cases h
    | node op fs => rfl
  | node op fs => rfl

mutual

theorem isReduced_reduced : ∀ f : Formula, f.reduced.isReduced = true
  | var _ => rfl
  | neg f => isReduced_negated (isReduced_reduced f)
  | node _ fs => isReducedOf_reducedOf fs

theorem isReducedOf_reducedOf : ∀ fs : List Formula, isReducedOf (reducedOf fs) = true
  | [] => rfl
  | f :: fs => by
    rw [reducedOf, isReducedOf, isReduced_reduced f, isReducedOf_reducedOf fs]
    rfl

end

mutual

theorem reduced_eq_self : ∀ f : Formula, f.isReduced = true → f.reduced = f
  | var _, _ => rfl
  | neg f, h => by
    rw [isReduced, Bool.and_eq_true] at h
    rw [reduced, reduced_eq_self f h.2]
    cases f with
    | var a => rfl
    | neg f => cases h.1
    | node op fs => rfl
  | node op fs, h => by rw [reduced, reducedOf_eq_self fs h]

theorem reducedOf_eq_self : ∀ fs : List Formula, isReducedOf fs = true → reducedOf fs = fs
  | [], _ => rfl
  | f :: fs, h => by
    rw [isReducedOf, Bool.and_eq_true] at h
    rw [reducedOf, reduced_eq_self f h.1, reducedOf_eq_self fs h.2]

end

theorem reducedOf_append (fs gs : List Formula) :
    reducedOf (fs ++ gs) = reducedOf fs ++ reducedOf gs := by
  induction fs with
  | nil => rfl
  | cons f fs ih => rw [List.cons_append, reducedOf, ih, reducedOf, List.cons_append]

/-- Whichever pair is removed first, the same is left in the end. -/
theorem Cancels.reduced_eq (h : Cancels f g) : f.reduced = g.reduced := by
  induction h with
  | pair f => exact negated_negated (isReduced_reduced f)
  | neg _ ih => rw [reduced, ih, reduced]
  | node op before after _ ih =>
    simp only [reduced, reducedOf_append, reducedOf, ih]

theorem reduced_eq_of_cancels (h : ReflTransGen Cancels f g) : f.reduced = g.reduced := by
  induction h with
  | refl => rfl
  | tail _ hstep ih => exact ih.trans hstep.reduced_eq

/-! ## Removing all pairs -/

theorem cancels_negated (f : Formula) : ReflTransGen Cancels (neg f) f.negated := by
  cases f with
  | neg f => exact .single (.pair f)
  | var a => exact .refl
  | node op fs => exact .refl

mutual

theorem cancels_reduced : ∀ f : Formula, ReflTransGen Cancels f f.reduced
  | var _ => .refl
  | neg f =>
    ((cancels_reduced f).lift neg fun _ _ => .neg).trans (cancels_negated f.reduced)
  | node op fs => cancels_reducedOf op [] fs

/-- The operands are reduced from left to right. -/
theorem cancels_reducedOf (op : Connective) : ∀ (before fs : List Formula),
    ReflTransGen Cancels (node op (before ++ fs)) (node op (before ++ reducedOf fs))
  | _, [] => .refl
  | before, f :: fs => by
    have hf := (cancels_reduced f).lift (fun g => node op (before ++ g :: fs))
      fun _ _ h => Cancels.node op before fs h
    have hfs := cancels_reducedOf op (before ++ [f.reduced]) fs
    rw [List.append_assoc, List.append_assoc] at hfs
    exact hf.trans hfs

end

end Formula

/-! ## Encodings -/

namespace Encoder

variable {f g : Formula}

/-- Formulas with the same literal in every state are alike as operands. -/
theorem literals_congr (h : ∀ e, literal f e = literal g e) (before after : List Formula)
    (e : Encoder) : literals (before ++ f :: after) e = literals (before ++ g :: after) e := by
  induction before generalizing e with
  | nil => rw [List.nil_append, List.nil_append, literals, literals, h]
  | cons b before ih => simp only [List.cons_append, literals, ih]

/-- One pair of negations makes no difference to what comes of an encoding in progress. -/
theorem literal_eq_of_cancels (h : f.Cancels g) (e : Encoder) : literal f e = literal g e := by
  induction h generalizing e with
  | pair f =>
    rw [literal, literal]
    rcases literal f e with ⟨_ | l, e'⟩
    · rfl
    · simp only [Literal.neg_neg]
  | neg _ ih => rw [literal, literal, ih]
  | @node f g op before after _ ih =>
    have hempty : ∀ f : Formula, (before ++ f :: after).isEmpty = false := by simp
    rw [literal, literal, hempty, hempty, literals_congr ih]

end Encoder

namespace Supply

variable {f g : Formula}

/-- The encoding is the same however many pairs of negations are removed. -/
theorem encode_eq_of_cancels (h : ReflTransGen Formula.Cancels f g) (s : Supply) :
    s.encode g = s.encode f := by
  induction h with
  | refl => rfl
  | tail _ hstep ih =>
    rw [← ih]
    unfold encode
    rw [Encoder.literal_eq_of_cancels hstep]

/-- Removing all pairs of directly nested negations leaves one formula, in whatever order they are
removed, and this formula is encoded like the one with them: there is the same error, or the same
instance and root, and the supply is left the same. So is every formula on the way. -/
theorem encode_reduced (f : Formula) :
    ReflTransGen Formula.Cancels f f.reduced ∧ f.reduced.isReduced = true ∧
      (∀ s : Supply, s.encode f.reduced = s.encode f) ∧
      ∀ g, ReflTransGen Formula.Cancels f g →
        (∀ s : Supply, s.encode g = s.encode f) ∧ (g.isReduced = true → g = f.reduced) := by
  have hreduced := f.cancels_reduced
  refine ⟨hreduced, f.isReduced_reduced, encode_eq_of_cancels hreduced, fun g hg => ?_⟩
  refine ⟨encode_eq_of_cancels hg, fun h => ?_⟩
  rw [Formula.reduced_eq_of_cancels hg, Formula.reduced_eq_self g h]

/-- A pair above a conjunction and a pair in a chain of three below it. -/
theorem encode_reduced_nested :
    let x : Formula := .var ⟨1, by decide⟩
    let y : Formula := .var ⟨2, by decide⟩
    let f : Formula := .neg (.neg (.node .and [x, .neg (.neg (.neg y))]))
    let g : Formula := .node .and [x, .neg y]
    ReflTransGen Formula.Cancels f g ∧ g.isReduced = true ∧ f.reduced = g ∧
      ∀ s : Supply, s.encode g = s.encode f := by
  intro x y f g
  have houter : Formula.Cancels f (.node .and [x, .neg (.neg (.neg y))]) := .pair _
  have hinner : Formula.Cancels (.node .and [x, .neg (.neg (.neg y))]) g :=
    .node .and [x] [] (.pair _)
  have hg : ReflTransGen Formula.Cancels f g := .tail (.single houter) hinner
  obtain ⟨hencode, heq⟩ := (encode_reduced f).2.2.2 g hg
  exact ⟨hg, rfl, (heq rfl).symm, hencode⟩

end Supply

end Clausal
