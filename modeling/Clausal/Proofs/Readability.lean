import Clausal.Formula.Text
import Clausal.Proofs.Lifting
import Clausal.Proofs.Text

/-!
# Unique readability

The text of a formula is enough to read off where it ends, whatever comes after it that is no digit:
an atom ends with its digits, a negation with the formula it negates, and a list of operands with
its closing bracket. So the text determines the formula, as long as every conjunction and
disjunction has two operands at least, between which its connective is written. All formulas that
are built by the functions for it are of this kind.
-/

namespace Clausal

theorem Connective.chars_append_inj {op op' : Connective} {cs ds : List Char}
    (h : op.chars ++ cs = op'.chars ++ ds) : op = op' ∧ cs = ds := by
  cases op <;> cases op' <;> simp_all [chars]

namespace Formula

open Text (isNumeral_toDigits)

variable {f g : Formula} {fs gs : List Formula} {op : Connective} {rest : List Char}

/-! ## Shape -/

mutual

/-- Every conjunction and disjunction has at least two operands. -/
def IsBranching : Formula → Prop
  | var _ => True
  | neg f => f.IsBranching
  | node _ fs => 2 ≤ fs.length ∧ AreBranching fs

def AreBranching : List Formula → Prop
  | [] => True
  | f :: fs => f.IsBranching ∧ AreBranching fs

end

theorem areBranching_iff : AreBranching fs ↔ ∀ f ∈ fs, f.IsBranching := by
  induction fs with
  | nil => simp [AreBranching]
  | cons f fs ih => rw [AreBranching, ih, List.forall_mem_cons]

/-! ## Operands in a text -/

/-- The text of the operands after the first, each with the connective in front. -/
def restChars (op : Connective) : List Formula → List Char
  | [] => []
  | f :: fs => op.chars ++ f.chars ++ restChars op fs

theorem intercalate_charsOf_cons (op : Connective) (f : Formula) (fs : List Formula) :
    op.chars.intercalate (charsOf (f :: fs)) = f.chars ++ restChars op fs := by
  induction fs generalizing f with
  | nil => simp [charsOf, restChars]
  | cons g fs ih =>
    have htail := ih g
    rw [charsOf] at htail
    rw [charsOf, charsOf, List.intercalate_cons_cons, htail, restChars, List.append_assoc,
      List.append_assoc]

theorem chars_node_cons (op : Connective) (f : Formula) (fs : List Formula) :
    (node op (f :: fs)).chars ++ rest
      = '(' :: (f.chars ++ (restChars op fs ++ ')' :: rest)) := by
  rw [chars, intercalate_charsOf_cons]
  simp

/-- What follows an operand is no digit. -/
theorem takeWhile_restChars (op : Connective) (fs : List Formula) (rest : List Char) :
    (restChars op fs ++ ')' :: rest).takeWhile Char.isDigit = [] := by
  cases fs with
  | nil => rfl
  | cons f fs => cases op <;> rfl

/-! ## Reading -/

-- The remainders are arbitrary, since those of an operand are the operands after it.
mutual

/-- A text that begins with a formula begins with no other, if no digit follows. -/
theorem chars_append_inj : ∀ f g : Formula, f.IsBranching → g.IsBranching →
    ∀ rest rest' : List Char,
      rest.takeWhile Char.isDigit = [] → rest'.takeWhile Char.isDigit = [] →
      f.chars ++ rest = g.chars ++ rest' → f = g ∧ rest = rest'
  | var a, var b, _, _, rest, rest', hrest, hrest', h => by
    have hdigits := (List.cons.inj h).2
    obtain ⟨hindex, heq⟩ := (isNumeral_toDigits a.index).append_inj (isNumeral_toDigits b.index)
      hrest hrest' hdigits
    exact ⟨congrArg var (Atom.eq_of_index_eq hindex), heq⟩
  | neg f, neg g, hf, hg, rest, rest', hrest, hrest', h => by
    obtain ⟨hfg, heq⟩ := chars_append_inj f g hf hg rest rest' hrest hrest' (List.cons.inj h).2
    exact ⟨congrArg neg hfg, heq⟩
  | node op (f :: fs), node op' (g :: gs), hf, hg, rest, rest', _, _, h => by
    rw [chars_node_cons, chars_node_cons] at h
    obtain ⟨hfg, h⟩ := chars_append_inj f g hf.2.1 hg.2.1 _ _ (takeWhile_restChars op fs rest)
      (takeWhile_restChars op' gs rest') (List.cons.inj h).2
    obtain ⟨hfsgs, hrest, hop⟩ := restChars_append_inj fs gs hf.2.2 hg.2.2 op op' rest rest' h
    have hne : fs ≠ [] := by
      intro hnil
      have hlength := hf.1
      simp [hnil] at hlength
    exact ⟨by rw [hfg, hfsgs, hop hne], hrest⟩
  | node _ [], _, hf, _, _, _, _, _, _ | _, node _ [], _, hf, _, _, _, _, _ =>
    absurd hf.1 (by simp)
  | var _, neg _, _, _, _, _, _, _, h | var _, node _ (_ :: _), _, _, _, _, _, _, h
  | neg _, var _, _, _, _, _, _, _, h | neg _, node _ (_ :: _), _, _, _, _, _, _, h
  | node _ (_ :: _), var _, _, _, _, _, _, _, h | node _ (_ :: _), neg _, _, _, _, _, _, _, h => by
    cases h

/-- Operands after the first are read up to the closing bracket, with their connective. -/
theorem restChars_append_inj : ∀ fs gs : List Formula, AreBranching fs → AreBranching gs →
    ∀ (op op' : Connective) (rest rest' : List Char),
      restChars op fs ++ ')' :: rest = restChars op' gs ++ ')' :: rest' →
      fs = gs ∧ rest = rest' ∧ (fs ≠ [] → op = op')
  | [], [], _, _, _, _, _, _, h => ⟨rfl, (List.cons.inj h).2, fun hne => absurd rfl hne⟩
  | f :: fs, g :: gs, hf, hg, op, op', rest, rest', h => by
    rw [restChars, restChars, List.append_assoc, List.append_assoc, List.append_assoc,
      List.append_assoc] at h
    obtain ⟨hop, h⟩ := Connective.chars_append_inj h
    obtain ⟨hfg, h⟩ := chars_append_inj f g hf.1 hg.1 _ _ (takeWhile_restChars op fs rest)
      (takeWhile_restChars op' gs rest') h
    obtain ⟨hfsgs, hrest, -⟩ := restChars_append_inj fs gs hf.2 hg.2 op op' rest rest' h
    exact ⟨by rw [hfg, hfsgs], hrest, fun _ => hop⟩
  | [], _ :: _, _, _, _, op', _, _, h => by cases op' <;> cases h
  | _ :: _, [], _, _, op, _, _, _, h => by cases op <;> cases h

end

theorem eq_of_text_eq (hf : f.IsBranching) (hg : g.IsBranching) (h : f.text = g.text) : f = g := by
  have hchars := String.ofList_injective h
  rw [← List.append_nil f.chars, ← List.append_nil g.chars] at hchars
  exact (chars_append_inj f g hf hg [] [] rfl rfl hchars).1

/-! ## Building -/

section

variable {α : Type} {read : α → Except Error Formula} {lookup : Nat → Except Error Atom}
  {xs : List α} {l : Literal} {cs : List Clause}

theorem isBranching_pair (op : Connective) (hf : f.IsBranching) (hg : g.IsBranching) :
    (node op [f, g]).IsBranching :=
  ⟨Nat.le_refl 2, hf, hg, trivial⟩

theorem isBranching_join (hfs : ∀ g ∈ fs, g.IsBranching) (h : join op fs = .ok f) :
    f.IsBranching := by
  match fs, h with
  | [g], h =>
    cases h
    exact hfs f List.mem_cons_self
  | g :: g' :: fs, h =>
    cases h
    refine ⟨?_, areBranching_iff.mpr hfs⟩
    simp

theorem isBranching_gather (hread : ∀ x ∈ xs, ∀ g, read x = .ok g → g.IsBranching)
    (h : gather op read xs = .ok f) : f.IsBranching := by
  obtain ⟨fs, hfs, hjoin⟩ := join_of_gather_eq_ok h
  refine isBranching_join (fun g hg => ?_) hjoin
  obtain ⟨x, hx, hxg⟩ := (mem_iff_of_mapM_eq_ok hfs g).mp hg
  exact hread x hx g hxg

theorem isBranching_ofLiteral (h : ofLiteral lookup l = .ok f) : f.IsBranching := by
  unfold ofLiteral at h
  cases hl : lookup l.atom with
  | error e =>
    rw [hl] at h
    cases h
  | ok a =>
    rw [hl] at h
    cases h
    cases l.polarity <;> trivial

theorem isBranching_ofClauses (h : ofClauses lookup cs = .ok f) : f.IsBranching :=
  isBranching_gather (fun _ _ _ hc => isBranching_gather (fun _ _ _ hl => isBranching_ofLiteral hl)
    hc) h

end

/-- The formula is what a function for building formulas makes of the operands given. -/
inductive Builds : List Formula → Formula → Prop
  | var (a : Atom) : Builds [] (.var a)
  | neg (f : Formula) : Builds [f] (.neg f)
  | and (f g : Formula) : Builds [f, g] (and f g)
  | or (f g : Formula) : Builds [f, g] (or f g)
  | imp (f g : Formula) : Builds [f, g] (imp f g)
  | iff (f g : Formula) : Builds [f, g] (iff f g)
  | xor (f g : Formula) : Builds [f, g] (xor f g)
  | join {op : Connective} {fs : List Formula} {f : Formula} (h : join op fs = .ok f) : Builds fs f
  | ofLiteral {lookup : Nat → Except Error Atom} {l : Literal} {f : Formula}
      (h : ofLiteral lookup l = .ok f) : Builds [] f
  | ofClauses {lookup : Nat → Except Error Atom} {cs : List Clause} {f : Formula}
      (h : ofClauses lookup cs = .ok f) : Builds [] f

theorem Builds.isBranching (h : Builds fs f) (hfs : ∀ g ∈ fs, g.IsBranching) : f.IsBranching := by
  have hpair : ∀ {g g' : Formula}, (∀ h ∈ [g, g'], h.IsBranching) →
      g.IsBranching ∧ g'.IsBranching := fun h => ⟨h _ (by simp), h _ (by simp)⟩
  cases h with
  | var a => trivial
  | neg g => exact hfs g List.mem_cons_self
  | and g g' | or g g' | imp g g' =>
    obtain ⟨hg, hg'⟩ := hpair hfs
    exact isBranching_pair _ hg hg'
  | iff g g' =>
    obtain ⟨hg, hg'⟩ := hpair hfs
    exact isBranching_pair .and (isBranching_pair .or hg hg') (isBranching_pair .or hg' hg)
  | xor g g' =>
    obtain ⟨hg, hg'⟩ := hpair hfs
    exact isBranching_pair .or (isBranching_pair .and hg hg') (isBranching_pair .and hg hg')
  | join h => exact isBranching_join hfs h
  | ofLiteral h => exact isBranching_ofLiteral h
  | ofClauses h => exact isBranching_ofClauses h

/-- Formulas in which every conjunction and disjunction has at least two operands are the same if
their texts are, and every function for building formulas makes such formulas of such operands. -/
theorem eq_of_text_eq_of_isBranching :
    (∀ f g : Formula, f.IsBranching → g.IsBranching → f.text = g.text → f = g) ∧
      ∀ fs f, Builds fs f → (∀ g ∈ fs, g.IsBranching) → f.IsBranching :=
  ⟨fun _ _ => eq_of_text_eq, fun _ _ => Builds.isBranching⟩

/-- An equivalence, and the formula that it is written out to. -/
theorem eq_of_text_eq_of_equivalence :
    let p := var ⟨1, by decide⟩
    let q := var ⟨2, by decide⟩
    let f := iff p q
    let g := node .and [node .or [neg p, q], node .or [neg q, p]]
    f.IsBranching ∧ g.IsBranching ∧ f.text = "((¬x1 ∨ x2) ∧ (¬x2 ∨ x1))" ∧
      g.text = "((¬x1 ∨ x2) ∧ (¬x2 ∨ x1))" ∧ f = g := by
  intro p q f g
  obtain ⟨hread, hshape⟩ := eq_of_text_eq_of_isBranching
  have hf : f.IsBranching := hshape [p, q] f (.iff p q) (by simp [p, q, IsBranching])
  have hg : g.IsBranching := by simp [g, p, q, IsBranching, AreBranching]
  have hftext : f.text = "((¬x1 ∨ x2) ∧ (¬x2 ∨ x1))" := by decide +kernel
  have hgtext : g.text = "((¬x1 ∨ x2) ∧ (¬x2 ∨ x1))" := by decide +kernel
  exact ⟨hf, hg, hftext, hgtext, hread f g hf hg (hftext.trans hgtext.symm)⟩

/-- With one operand nothing shows the connective. -/
example (f : Formula) : (node .and [f]).text = (node .or [f]).text := rfl

end Formula

end Clausal
