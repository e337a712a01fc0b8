import Clausal.Proofs.Session

/-!
# Lifting clauses to a formula

A formula is gathered from clauses, and the formula of a clause from its literals, in the same way:
the members of a list are read in order up to the first that fails, and a list without members fails
by itself. So one account of gathering serves for both, and the first fault of the clauses is the
first fault of their first faulty clause. The clauses of an encoding have no fault, which makes a
formula of them that says what they say.
-/

namespace Clausal

namespace Formula

/-! ## Reading the members of a list -/

section

variable {α β ε : Type} {read : α → Except ε β} {xs : List α} {ys : List β} {e : ε}

theorem mapM_cons_eq (read : α → Except ε β) (x : α) (xs : List α) :
    (x :: xs).mapM read = match read x with
      | .error e => .error e
      | .ok y => match xs.mapM read with
        | .error e => .error e
        | .ok ys => .ok (y :: ys) := by
  rw [List.mapM_cons]
  cases read x with
  | error e => rfl
  | ok y => cases xs.mapM read <;> rfl

theorem exists_mapM_eq_ok_iff :
    (∃ ys, xs.mapM read = .ok ys) ↔ ∀ x ∈ xs, ∃ y, read x = .ok y := by
  induction xs with
  | nil => exact ⟨fun _ x hx => absurd hx List.not_mem_nil, fun _ => ⟨[], rfl⟩⟩
  | cons x xs ih =>
    rw [List.forall_mem_cons, ← ih, mapM_cons_eq]
    cases read x with
    | error e => simp
    | ok y => cases xs.mapM read <;> simp

theorem mem_iff_of_mapM_eq_ok (h : xs.mapM read = .ok ys) (y : β) :
    y ∈ ys ↔ ∃ x ∈ xs, read x = .ok y := by
  induction xs generalizing ys with
  | nil =>
    cases h
    simp
  | cons x xs ih =>
    rw [mapM_cons_eq] at h
    cases hx : read x with
    | error e => simp [hx] at h
    | ok z =>
      cases hxs : xs.mapM read with
      | error e => simp [hx, hxs] at h
      | ok zs =>
        simp only [hx, hxs, Except.ok.injEq] at h
        subst h
        simp [ih hxs, hx, eq_comm]

/-- A reading fails with the first member that does. -/
theorem mapM_eq_error_iff :
    xs.mapM read = .error e ↔ ∃ before x after, xs = before ++ x :: after ∧
      (∀ y ∈ before, ∃ z, read y = .ok z) ∧ read x = .error e := by
  constructor
  · intro h
    induction xs with
    | nil => cases h
    | cons x xs ih =>
      rw [mapM_cons_eq] at h
      cases hx : read x with
      | error e' =>
        simp only [hx, Except.error.injEq] at h
        subst h
        exact ⟨[], x, xs, rfl, by simp, hx⟩
      | ok y =>
        cases hxs : xs.mapM read with
        | ok ys => simp [hx, hxs] at h
        | error e' =>
          simp only [hx, hxs, Except.error.injEq] at h
          subst h
          obtain ⟨before, x', after, rfl, hbefore, hx'⟩ := ih hxs
          refine ⟨x :: before, x', after, rfl, ?_, hx'⟩
          exact List.forall_mem_cons.mpr ⟨⟨y, hx⟩, hbefore⟩
  · intro hfirst
    obtain ⟨before, x, after, rfl, hbefore, hx⟩ := hfirst
    induction before with
    | nil => rw [List.nil_append, mapM_cons_eq, hx]
    | cons y before ih =>
      obtain ⟨⟨z, hz⟩, hbefore⟩ := List.forall_mem_cons.mp hbefore
      rw [List.cons_append, mapM_cons_eq, hz, ih hbefore]

end

/-! ## Gathering -/

section

variable {α : Type} {op : Connective} {read : α → Except Error Formula} {xs : List α}
  {fs : List Formula} {f : Formula} {e : Error}

/-- The conjunction or disjunction of what the members of a list are read as. -/
def gather (op : Connective) (read : α → Except Error Formula) (xs : List α) :
    Except Error Formula :=
  match xs.mapM read with
  | .error e => .error e
  | .ok fs => (join op fs).mapError .formula

/-- The first fault of a list: that it has no members, or the fault of a member with no faulty one
before it. -/
inductive FirstFault (Faulty : α → Error → Prop) : List α → Error → Prop
  | empty : FirstFault Faulty [] (.formula .emptyConnective)
  | member {before after : List α} {x : α} {e : Error}
      (hbefore : ∀ y ∈ before, ∀ e', ¬ Faulty y e') (hx : Faulty x e) :
      FirstFault Faulty (before ++ x :: after) e

theorem join_eq_ok (op : Connective) (hne : fs ≠ []) :
    ∃ f, join op fs = .ok f ∧ ∀ v, f.eval v = op.apply (fs.map (eval v)) := by
  match fs with
  | [f] =>
    refine ⟨f, rfl, fun v => ?_⟩
    cases op <;> simp [Connective.apply]
  | f :: g :: fs =>
    refine ⟨node op (f :: g :: fs), rfl, fun v => ?_⟩
    rw [eval, evals_eq_map]

theorem gather_of_mapM_eq_ok (op : Connective) (h : xs.mapM read = .ok fs) (hne : xs ≠ []) :
    ∃ f, gather op read xs = .ok f ∧ ∀ v, f.eval v = op.apply (fs.map (eval v)) := by
  have hfs : fs ≠ [] := by
    intro hnil
    obtain ⟨x, hx⟩ := List.exists_mem_of_ne_nil xs hne
    obtain ⟨g, hg⟩ := exists_mapM_eq_ok_iff.mp ⟨fs, h⟩ x hx
    have hmem := (mem_iff_of_mapM_eq_ok h g).mpr ⟨x, hx, hg⟩
    rw [hnil] at hmem
    cases hmem
  obtain ⟨f, hf, heval⟩ := join_eq_ok op hfs
  refine ⟨f, ?_, heval⟩
  rw [gather, h]
  simp only [hf]
  rfl

theorem gather_nil : gather op read [] = .error (.formula .emptyConnective) := rfl

theorem exists_gather_eq_ok_iff :
    (∃ f, gather op read xs = .ok f) ↔ xs ≠ [] ∧ ∀ x ∈ xs, ∃ f, read x = .ok f := by
  rw [← exists_mapM_eq_ok_iff]
  constructor
  · intro hok
    obtain ⟨f, hf⟩ := hok
    constructor
    · intro hnil
      rw [hnil, gather_nil] at hf
      cases hf
    · unfold gather at hf
      cases h : xs.mapM read with
      | error e =>
        rw [h] at hf
        cases hf
      | ok fs => exact ⟨fs, rfl⟩
  · intro hboth
    obtain ⟨hne, fs, h⟩ := hboth
    obtain ⟨f, hf, -⟩ := gather_of_mapM_eq_ok op h hne
    exact ⟨f, hf⟩

/-- What is gathered is at fault with its first fault. -/
theorem gather_eq_error_iff :
    gather op read xs = .error e ↔ FirstFault (fun x e => read x = .error e) xs e := by
  constructor
  · intro h
    cases hxs : xs.mapM read with
    | error e' =>
      rw [gather, hxs] at h
      cases h
      obtain ⟨before, x, after, rfl, hbefore, hx⟩ := mapM_eq_error_iff.mp hxs
      refine .member (fun y hy e' he' => ?_) hx
      obtain ⟨z, hz⟩ := hbefore y hy
      rw [hz] at he'
      cases he'
    | ok fs =>
      cases xs with
      | nil =>
        cases h
        exact .empty
      | cons x xs =>
        obtain ⟨f, hf, -⟩ := gather_of_mapM_eq_ok op hxs (List.cons_ne_nil x xs)
        rw [hf] at h
        cases h
  · intro h
    cases h with
    | empty => rfl
    | @member before after x e hbefore hx =>
      have hread : (before ++ x :: after).mapM read = .error e := by
        refine mapM_eq_error_iff.mpr ⟨before, x, after, rfl, fun y hy => ?_, hx⟩
        cases hy' : read y with
        | error e' => exact absurd hy' (hbefore y hy e')
        | ok z => exact ⟨z, rfl⟩
      rw [gather, hread]

theorem join_of_gather_eq_ok (h : gather op read xs = .ok f) :
    ∃ fs, xs.mapM read = .ok fs ∧ join op fs = .ok f := by
  unfold gather at h
  cases hxs : xs.mapM read with
  | error e =>
    rw [hxs] at h
    cases h
  | ok fs =>
    simp only [hxs] at h
    cases hfs : join op fs with
    | error e =>
      rw [hfs] at h
      cases h
    | ok g =>
      rw [hfs] at h
      cases h
      exact ⟨fs, rfl, hfs⟩

theorem mem_of_gather_eq_ok (h : gather op read xs = .ok f) : ∃ fs : List Formula,
    (∀ g, g ∈ fs ↔ ∃ x ∈ xs, read x = .ok g) ∧ ∀ v, f.eval v = op.apply (fs.map (eval v)) := by
  obtain ⟨hne, hall⟩ := exists_gather_eq_ok_iff.mp ⟨f, h⟩
  obtain ⟨fs, hfs⟩ := exists_mapM_eq_ok_iff.mpr hall
  obtain ⟨f', hf', heval⟩ := gather_of_mapM_eq_ok op hfs hne
  rw [h] at hf'
  cases hf'
  exact ⟨fs, mem_iff_of_mapM_eq_ok hfs, heval⟩

theorem eval_gather_or (h : gather .or read xs = .ok f) (v : Atom → Bool) :
    f.eval v = true ↔ ∃ x ∈ xs, ∃ g, read x = .ok g ∧ g.eval v = true := by
  obtain ⟨fs, hfs, heval⟩ := mem_of_gather_eq_ok h
  have hany : f.eval v = true ↔ ∃ g ∈ fs, g.eval v = true := by
    simp [heval, Connective.apply]
  rw [hany]
  constructor
  · intro htrue
    obtain ⟨g, hg, hgv⟩ := htrue
    obtain ⟨x, hx, hxg⟩ := (hfs g).mp hg
    exact ⟨x, hx, g, hxg, hgv⟩
  · intro htrue
    obtain ⟨x, hx, g, hxg, hgv⟩ := htrue
    exact ⟨g, (hfs g).mpr ⟨x, hx, hxg⟩, hgv⟩

theorem eval_gather_and (h : gather .and read xs = .ok f) (v : Atom → Bool) :
    f.eval v = true ↔ ∀ x ∈ xs, ∃ g, read x = .ok g ∧ g.eval v = true := by
  obtain ⟨fs, hfs, heval⟩ := mem_of_gather_eq_ok h
  have hall : f.eval v = true ↔ ∀ g ∈ fs, g.eval v = true := by
    simp [heval, Connective.apply]
  rw [hall]
  constructor
  · intro htrue x hx
    obtain ⟨g, hg⟩ := (exists_gather_eq_ok_iff.mp ⟨f, h⟩).2 x hx
    exact ⟨g, hg, htrue g ((hfs g).mpr ⟨x, hx, hg⟩)⟩
  · intro htrue g hg
    obtain ⟨x, hx, hxg⟩ := (hfs g).mp hg
    obtain ⟨g', hg', hgv⟩ := htrue x hx
    rw [hxg] at hg'
    cases hg'
    exact hgv

end

/-! ## Clauses -/

section

variable {lookup : Nat → Except Error Atom} {l : Literal} {c : Clause} {cs : List Clause}
  {f : Formula} {e : Error}

/-- A clause has a literal, and an atom is found for each of them. -/
structure Lifts (lookup : Nat → Except Error Atom) (c : Clause) : Prop where
  ne_nil : c ≠ []
  found : ∀ l ∈ c, ∃ a, lookup l.atom = .ok a

/-- The first fault of clauses in reading order. Where no atom is found for a literal, that is its
fault; a clause without literals is faulty where it stands, and so is a list without clauses. -/
def FirstFaultOf (lookup : Nat → Except Error Atom) : List Clause → Error → Prop :=
  FirstFault (FirstFault fun (l : Literal) e => lookup l.atom = .error e)

theorem ofClause_eq_gather (lookup : Nat → Except Error Atom) (c : Clause) :
    ofClause lookup c = gather .or (ofLiteral lookup) c := rfl

theorem ofClauses_eq_gather (lookup : Nat → Except Error Atom) (cs : List Clause) :
    ofClauses lookup cs = gather .and (ofClause lookup) cs := rfl

theorem ofLiteral_eq_error_iff : ofLiteral lookup l = .error e ↔ lookup l.atom = .error e := by
  unfold ofLiteral
  cases lookup l.atom with
  | error e' => simp
  | ok a => simp

theorem exists_ofLiteral_eq_ok_iff :
    (∃ f, ofLiteral lookup l = .ok f) ↔ ∃ a, lookup l.atom = .ok a := by
  unfold ofLiteral
  cases lookup l.atom with
  | error e => simp
  | ok a => simp

theorem eval_ofLiteral (v : Atom → Bool) : (∃ f, ofLiteral lookup l = .ok f ∧ f.eval v = true) ↔
    ∃ a, lookup l.atom = .ok a ∧ v a = l.polarity := by
  unfold ofLiteral
  cases lookup l.atom with
  | error e => simp
  | ok a => cases hp : l.polarity <;> simp [eval]

theorem exists_ofClause_eq_ok_iff : (∃ f, ofClause lookup c = .ok f) ↔ Lifts lookup c := by
  rw [ofClause_eq_gather, exists_gather_eq_ok_iff]
  simp only [exists_ofLiteral_eq_ok_iff]
  exact ⟨fun h => ⟨h.1, h.2⟩, fun h => ⟨h.ne_nil, h.found⟩⟩

theorem exists_ofClauses_eq_ok_iff :
    (∃ f, ofClauses lookup cs = .ok f) ↔ cs ≠ [] ∧ ∀ c ∈ cs, Lifts lookup c := by
  rw [ofClauses_eq_gather, exists_gather_eq_ok_iff]
  simp only [exists_ofClause_eq_ok_iff]

theorem ofClauses_eq_error_iff : ofClauses lookup cs = .error e ↔ FirstFaultOf lookup cs e := by
  rw [ofClauses_eq_gather, gather_eq_error_iff]
  simp only [ofClause_eq_gather, gather_eq_error_iff, ofLiteral_eq_error_iff]
  rfl

/-- A formula made of clauses is true where every clause has a literal whose atom has its
polarity. -/
theorem eval_ofClauses (h : ofClauses lookup cs = .ok f) (v : Atom → Bool) : f.eval v = true ↔
    ∀ c ∈ cs, ∃ l ∈ c, ∃ a, lookup l.atom = .ok a ∧ v a = l.polarity := by
  rw [ofClauses_eq_gather] at h
  rw [eval_gather_and h]
  refine forall₂_congr fun c hc => ?_
  obtain ⟨g, hg⟩ := (exists_gather_eq_ok_iff.mp ⟨f, h⟩).2 c hc
  rw [ofClause_eq_gather] at hg ⊢
  simp only [hg, Except.ok.injEq, exists_eq_left', eval_gather_or hg, eval_ofLiteral]

end

end Formula

/-! ## The clauses of an encoding -/

namespace Supply

variable {s t : Supply} {f : Formula} {e : Encoding}

theorem atom_eq_ok {i : Nat} (hpos : 0 < i) (hi : i ≤ s.mark) : s.atom i = .ok ⟨i, hpos⟩ := by
  unfold atom Atom.ofIndex
  rw [dif_pos hpos]
  simp [knows, hi]

/-- The clauses of an encoding are read over the atoms handed out by its end. -/
theorem Encodes.lifts (he : s.Encodes f e t) :
    e.cnf.clauses ≠ [] ∧ ∀ c ∈ e.cnf.clauses, Formula.Lifts t.atom c := by
  constructor
  · exact List.ne_nil_of_mem (he.mem_clauses.mpr (.inr rfl))
  · intro c hc
    constructor
    · rcases he.mem_clauses.mp hc with ⟨d, hd, rfl⟩ | rfl
      · obtain ⟨l, hl, -⟩ := (he.isDefinition hd).two
        exact List.ne_nil_of_mem (Clause.mem_canonical.mpr hl)
      · exact List.cons_ne_nil _ _
    · intro l hl
      obtain ⟨hpos, hle⟩ := he.range_of_mem hc l hl
      exact ⟨⟨l.atom, hpos⟩, atom_eq_ok hpos hle⟩

/-- The formula made of the clauses of an encoding says what they say. -/
theorem Encodes.eval_ofClauses (he : s.Encodes f e t) {g : Formula}
    (hg : Formula.ofClauses t.atom e.cnf.clauses = .ok g) (w : Nat → Bool) :
    (g.eval fun a => w a.index) = e.cnf.satisfiedBy w := by
  rw [Bool.eq_iff_iff, Formula.eval_ofClauses hg, Cnf.satisfiedBy_iff]
  refine forall₂_congr fun c hc => ?_
  rw [Clause.satisfiedBy_iff]
  constructor
  · intro htrue
    obtain ⟨l, hl, a, ha, hv⟩ := htrue
    obtain ⟨hpos, hle⟩ := he.range_of_mem hc l hl
    rw [atom_eq_ok hpos hle] at ha
    cases ha
    exact ⟨l, hl, by simpa [Literal.trueUnder] using hv⟩
  · intro htrue
    obtain ⟨l, hl, hv⟩ := htrue
    obtain ⟨hpos, hle⟩ := he.range_of_mem hc l hl
    exact ⟨l, hl, ⟨l.atom, hpos⟩, atom_eq_ok hpos hle, by simpa [Literal.trueUnder] using hv⟩

/-- It has a model exactly when the formula encoded has one. -/
theorem Encodes.exists_eval_ofClauses (he : s.Encodes f e t)
    (hleaves : ∀ a ∈ f.leaves, a.index ≤ s.mark) {g : Formula}
    (hg : Formula.ofClauses t.atom e.cnf.clauses = .ok g) :
    (∃ v, g.eval v = true) ↔ ∃ v, f.eval v = true := by
  constructor
  · intro hsat
    obtain ⟨v, hv⟩ := hsat
    have hvalues : (fun a : Atom => valuesOf v a.index) = v := funext (valuesOf_index v)
    rw [← hvalues, he.eval_ofClauses hg] at hv
    exact ⟨_, he.eval_of_satisfiedBy hv⟩
  · intro hsat
    obtain ⟨v, hv⟩ := hsat
    obtain ⟨w, hw, -⟩ := he.exists_satisfiedBy hleaves hv
    exact ⟨_, (he.eval_ofClauses hg w).trans hw⟩

end Supply

namespace Session

variable {σ : Type}

theorem cnfFormula_of_encode_eq_ok (s : Session σ) {f : Formula} {e : Encoding} {t : Supply}
    (h : s.supply.encode f = (.ok e, t)) :
    (s.cnfFormula f).1 = Formula.ofClauses t.atom e.cnf.clauses := by
  unfold cnfFormula encode
  rw [h]

theorem cnfFormula_of_encode_eq_error (s : Session σ) {f : Formula} {x : Error} {t : Supply}
    (h : s.supply.encode f = (.error x, t)) : (s.cnfFormula f).1 = .error x := by
  unfold cnfFormula encode
  rw [h]

/-- Clauses make a formula exactly when there is one, each has a literal and an atom is found for
every literal; the formula is true where every clause has a literal whose atom has its polarity, and
a failure is the first fault in reading order. So the clauses of an encoding always make a formula,
which says what they say. -/
theorem ofClauses_lifts_clauses :
    (∀ (lookup : Nat → Except Error Atom) (cs : List Clause),
      ((∃ f, Formula.ofClauses lookup cs = .ok f) ↔
          cs ≠ [] ∧ ∀ c ∈ cs, Formula.Lifts lookup c) ∧
        (∀ f, Formula.ofClauses lookup cs = .ok f → ∀ v : Atom → Bool, f.eval v = true ↔
          ∀ c ∈ cs, ∃ l ∈ c, ∃ a, lookup l.atom = .ok a ∧ v a = l.polarity) ∧
        ∀ e, Formula.ofClauses lookup cs = .error e ↔ Formula.FirstFaultOf lookup cs e) ∧
      ∀ (s : Session σ) (f : Formula), f.hasOperands = true →
        (∀ a ∈ f.leaves, a.index ≤ s.supply.mark) →
          (atomMax < s.supply.mark + f.connectiveCount →
              (s.cnfFormula f).1 = .error (.supply .atomsExhausted)) ∧
            (s.supply.mark + f.connectiveCount ≤ atomMax →
              ∃ e g, (s.supply.encode f).1 = .ok e ∧ (s.cnfFormula f).1 = .ok g ∧
                (∀ w : Nat → Bool, (g.eval fun a => w a.index) = e.cnf.satisfiedBy w) ∧
                ((∃ v, g.eval v = true) ↔ ∃ v, f.eval v = true)) := by
  constructor
  · intro lookup cs
    exact ⟨Formula.exists_ofClauses_eq_ok_iff, fun f hf => Formula.eval_ofClauses hf,
      fun e => Formula.ofClauses_eq_error_iff⟩
  · intro s f hops hleaves
    constructor
    · intro hroom
      obtain ⟨t, ht⟩ := Supply.encode_eq_atomsExhausted hops hleaves hroom
      exact s.cnfFormula_of_encode_eq_error ht
    · intro hroom
      obtain ⟨e, t, ht, -⟩ := Supply.exists_encode_eq_ok hops hleaves hroom
      have he := Supply.encodes_of_eq_ok ht
      obtain ⟨g, hg⟩ := Formula.exists_ofClauses_eq_ok_iff.mpr he.lifts
      exact ⟨e, g, by rw [ht], (s.cnfFormula_of_encode_eq_ok ht).trans hg, he.eval_ofClauses hg,
        he.exists_eval_ofClauses hleaves hg⟩

/-- Clauses read two atoms further on, an empty clause before a literal whose atom is not known, and
the clauses of a conjunction. -/
theorem ofClauses_lifts_clauses_shifted :
    let supply : Supply := ⟨4, 0, by decide⟩
    let lookup : Nat → Except Error Atom := fun i => supply.atom (i + 2)
    let session : Session Search := ⟨supply, Search.oracle fun _ => .zero, Search.new .default 0⟩
    let f : Formula := .node .and [.var ⟨1, by decide⟩, .neg (.var ⟨2, by decide⟩)]
    (∃ g, Formula.ofClauses lookup [[⟨1, false⟩, ⟨2, true⟩]] = .ok g ∧
        ∀ v, g.eval v = true ↔ v ⟨3, by decide⟩ = false ∨ v ⟨4, by decide⟩ = true) ∧
      Formula.FirstFaultOf lookup [[⟨1, true⟩], [], [⟨9, true⟩]] (.formula .emptyConnective) ∧
      (f.hasOperands = true ∧ (∀ a ∈ f.leaves, a.index ≤ session.supply.mark) ∧
        session.supply.mark + f.connectiveCount ≤ atomMax) ∧
      ∃ g, (session.cnfFormula f).1 = .ok g ∧ ∃ v, g.eval v = true := by
  intro supply lookup session f
  obtain ⟨hlift, hencoding⟩ := @ofClauses_lifts_clauses Search
  have h3 : lookup 1 = .ok ⟨3, by decide⟩ := rfl
  have h4 : lookup 2 = .ok ⟨4, by decide⟩ := rfl
  refine ⟨?_, ((hlift lookup [[⟨1, true⟩], [], [⟨9, true⟩]]).2.2 _).mp rfl, ?_⟩
  · obtain ⟨hok, heval, -⟩ := hlift lookup [[⟨1, false⟩, ⟨2, true⟩]]
    have hlifts : Formula.Lifts lookup [⟨1, false⟩, ⟨2, true⟩] := ⟨by decide, by simp [h3, h4]⟩
    obtain ⟨g, hg⟩ := hok.mpr ⟨by decide, by simpa using hlifts⟩
    refine ⟨g, hg, fun v => ?_⟩
    rw [heval g hg v]
    simp [h3, h4]
  · have hops : f.hasOperands = true := rfl
    have hleaves : ∀ a ∈ f.leaves, a.index ≤ session.supply.mark := by decide
    have hroom : session.supply.mark + f.connectiveCount ≤ atomMax := by decide
    obtain ⟨e, g, -, hg, -, hsat⟩ := (hencoding session f hops hleaves).2 hroom
    exact ⟨⟨hops, hleaves, hroom⟩, g, hg, hsat.mpr ⟨fun a => a.index == 1, rfl⟩⟩

end Session

end Clausal
