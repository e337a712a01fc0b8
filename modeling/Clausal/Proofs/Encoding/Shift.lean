import Clausal.Proofs.Encoding.Models
import Mathlib.Order.Monotone.Basic

/-!
# Encodings from different marks

Where all atoms of a formula lie below the mark of a supply, only the atoms of the connectives
depend on the mark. From a higher mark the same encoding is made with these atoms moved up. A
renaming of atoms that keeps their order keeps that of literals and of clauses, so the two instances
agree clause by clause.
-/

namespace Clausal

/-! ## Renaming atoms -/

def Literal.rename (r : Nat → Nat) (l : Literal) : Literal := ⟨r l.atom, l.polarity⟩

def Clause.rename (r : Nat → Nat) (c : Clause) : Clause := c.map (Literal.rename r)

variable {r : Nat → Nat}

theorem Literal.rename_neg (l : Literal) : (-l).rename r = -l.rename r := rfl

theorem compare_of_strictMono (hr : StrictMono r) (i j : Nat) :
    compare (r i) (r j) = compare i j := by
  simp only [Nat.compare_eq_ite_lt, hr.lt_iff_lt]

theorem Literal.order_rename (hr : StrictMono r) (l m : Literal) :
    order (l.rename r) (m.rename r) = order l m := by
  simp only [order, compareLex, compareOn, rename, compare_of_strictMono hr]

theorem Literal.signedOrder_rename (hr : StrictMono r) (l m : Literal) :
    signedOrder (l.rename r) (m.rename r) = signedOrder l m := by
  obtain ⟨i, p⟩ := l
  obtain ⟨j, q⟩ := m
  -- integers are compared for literals of one polarity only
  cases p <;> cases q
  · simp [signedOrder, compareLex, compareOn, rename, toInt, Int.compare_eq_ite_lt, hr.lt_iff_lt]
  · rfl
  · rfl
  · simp [signedOrder, compareLex, compareOn, rename, toInt, Int.compare_eq_ite_lt, hr.lt_iff_lt]

theorem Clause.canonical_rename (hr : StrictMono r) (c : Clause) :
    Clause.canonical (c.rename r) = c.canonical.rename r :=
  Ordered.ofList_map (Literal.order_rename hr) c

theorem Cnf.clauseOrder_rename (hr : StrictMono r) (c d : Clause) :
    clauseOrder (c.rename r) (d.rename r) = clauseOrder c d := by
  induction c generalizing d with
  | nil => cases d <;> rfl
  | cons l c ih =>
    cases d with
    | nil => rfl
    | cons m d =>
      show List.compareLex _ (l.rename r :: Clause.rename r c) (m.rename r :: Clause.rename r d)
        = List.compareLex _ (l :: c) (m :: d)
      rw [List.compareLex_cons_cons, List.compareLex_cons_cons, Literal.signedOrder_rename hr]
      exact congrArg _ (ih d)

/-- Renamed clauses make up the renamed instance, in the same order. -/
theorem Cnf.clauses_insertAll_rename (hr : StrictMono r) {cnf cnf' : Cnf}
    (h : cnf'.clauses = cnf.clauses.map (Clause.rename r)) (cs : List Clause) :
    (cnf'.insertAll (cs.map (Clause.rename r))).clauses
      = (cnf.insertAll cs).clauses.map (Clause.rename r) := by
  induction cs generalizing cnf cnf' with
  | nil => exact h
  | cons c cs ih =>
    rw [List.map_cons, insertAll_cons, insertAll_cons]
    apply ih
    show Ordered.insert clauseOrder (Clause.canonical (c.rename r)) cnf'.clauses = _
    rw [h, Clause.canonical_rename hr, Ordered.insert_map (clauseOrder_rename hr)]
    rfl

theorem Connective.definition_rename (op : Connective) (z : Literal) (ls : List Literal) :
    op.definition (z.rename r) (ls.map (Literal.rename r))
      = (op.definition z ls).map (Clause.rename r) := by
  cases op <;> simp [definition, Clause.rename, Literal.rename_neg, Function.comp_def]

/-! ## Moving up the atoms of connectives -/

/-- Leaves the indices up to `h` alone and moves those above up by `d`. -/
def shift (h d i : Nat) : Nat := if i ≤ h then i else i + d

theorem strictMono_shift (h d : Nat) : StrictMono (shift h d) := by
  intro i j hij
  unfold shift
  split <;> split <;> omega

theorem shift_of_le {h i : Nat} (hi : i ≤ h) (d : Nat) : shift h d i = i := if_pos hi

theorem shift_of_lt {h i : Nat} (hi : h < i) (d : Nat) : shift h d i = i + d :=
  if_neg (Nat.not_le.mpr hi)

/-- The instance with the atoms above `h` moved up by `d`, and its bound with them. -/
def Cnf.shift (h d : Nat) (cnf : Cnf) : Cnf :=
  ⟨cnf.clauses.map (Clause.rename (Clausal.shift h d)), cnf.atomCount + d⟩

def Encoding.shift (h d : Nat) (e : Encoding) : Encoding :=
  ⟨e.cnf.shift h d, e.root.rename (Clausal.shift h d)⟩

namespace Formula

variable {h d : Nat}

theorem label_shift : ∀ (n : Nat) (f : Formula), h ≤ n → (∀ a ∈ f.leaves, a.index ≤ h) →
    f.label (n + d) = (f.label n).rename (shift h d)
  | n, var a, _, hf => by
    show a.literal = ⟨shift h d a.index, true⟩
    rw [shift_of_le (hf a (List.mem_singleton_self a))]
    rfl
  | n, neg f, hn, hf => by
    rw [label, label, label_shift n f hn hf, Literal.rename_neg]
  | n, node op fs, hn, _ => by
    show (⟨n + d + connectiveCountOf fs + 1, true⟩ : Literal)
      = ⟨shift h d (n + connectiveCountOf fs + 1), true⟩
    rw [shift_of_lt (by omega)]
    congr 1
    omega

theorem labelsOf_shift : ∀ (n : Nat) (fs : List Formula), h ≤ n →
    (∀ a ∈ leavesOf fs, a.index ≤ h) →
      labelsOf (n + d) fs = (labelsOf n fs).map (Literal.rename (shift h d))
  | _, [], _, _ => rfl
  | n, f :: fs, hn, hf => by
    have hfs := labelsOf_shift (n + f.connectiveCount) fs (by omega)
      fun a ha => hf a (List.mem_append_right _ ha)
    rw [labelsOf, labelsOf, List.map_cons,
      label_shift n f hn fun a ha => hf a (List.mem_append_left _ ha), Nat.add_right_comm, hfs]

mutual

/-- From a mark that is higher by `d` the same definitions come, with the atoms of the connectives
moved up. -/
theorem definitions_shift : ∀ (n : Nat) (f : Formula), h ≤ n → (∀ a ∈ f.leaves, a.index ≤ h) →
    f.definitions (n + d) = (f.definitions n).map (Clause.rename (shift h d))
  | _, var a, _, _ => rfl
  | n, neg f, hn, hf => definitions_shift n f hn hf
  | n, node op fs, hn, hf => by
    have hz := label_shift (d := d) n (node op fs) hn hf
    rw [label, label] at hz
    rw [definitions, definitions, List.map_append, definitionsOf_shift n fs hn hf,
      labelsOf_shift n fs hn hf, hz, Connective.definition_rename]

theorem definitionsOf_shift : ∀ (n : Nat) (fs : List Formula), h ≤ n →
    (∀ a ∈ leavesOf fs, a.index ≤ h) →
      definitionsOf (n + d) fs = (definitionsOf n fs).map (Clause.rename (shift h d))
  | _, [], _, _ => rfl
  | n, f :: fs, hn, hf => by
    have hfs := definitionsOf_shift (n + f.connectiveCount) fs (by omega)
      fun a ha => hf a (List.mem_append_right _ ha)
    rw [definitionsOf, definitionsOf, List.map_append,
      definitions_shift n f hn fun a ha => hf a (List.mem_append_left _ ha), Nat.add_right_comm,
      hfs]

end

mutual

/-- The atoms that are checked are those of the leaves. -/
theorem mem_leaves_of_mem_places {a : Atom} : ∀ (done : Nat) (f : Formula),
    ∀ p ∈ f.places done, p.check = .known a → a ∈ f.leaves
  | done, var b, p, hp, hcheck => by
    rw [places, List.mem_singleton] at hp
    subst hp
    cases hcheck
    exact List.mem_singleton_self a
  | done, neg f, p, hp, hcheck => mem_leaves_of_mem_places done f p hp hcheck
  | done, node op fs, p, hp, hcheck => by
    rw [places] at hp
    split at hp
    · rw [List.mem_singleton] at hp
      subst hp
      cases hcheck
    · rw [List.mem_append, List.mem_singleton] at hp
      rcases hp with hp | rfl
      · exact mem_leavesOf_of_mem_placesOf done fs p hp hcheck
      · cases hcheck

theorem mem_leavesOf_of_mem_placesOf {a : Atom} : ∀ (done : Nat) (fs : List Formula),
    ∀ p ∈ placesOf done fs, p.check = .known a → a ∈ leavesOf fs
  | _, [], p, hp, _ => absurd hp List.not_mem_nil
  | done, f :: fs, p, hp, hcheck => by
    rw [placesOf, List.mem_append] at hp
    rcases hp with hp | hp
    · exact List.mem_append_left _ (mem_leaves_of_mem_places done f p hp hcheck)
    · exact List.mem_append_right _ (mem_leavesOf_of_mem_placesOf _ fs p hp hcheck)

end

end Formula

/-! ## Where encodings fail -/

/-- An atom below both marks passes its check from both, and running out of atoms is only more
likely from the higher one. -/
theorem Place.fails_mono {h h' : Nat} (hh : h ≤ h') {p : Place}
    (hp : ∀ a, p.check = .known a → a.index ≤ h) (hf : p.fails h = true) : p.fails h' = true := by
  unfold fails at hf ⊢
  cases hcheck : p.check with
  | known a =>
    have := hp a hcheck
    simp only [hcheck, decide_eq_true_eq] at hf
    omega
  | operand => rfl
  | fresh =>
    simp only [hcheck, decide_eq_true_eq] at hf ⊢
    omega

/-- A place that fails from one mark does so from another, unless atoms are unknown or run out. -/
theorem Place.fails_of_fails {h h' : Nat} {p : Place}
    (hp : ∀ a, p.check = .known a → a.index ≤ h') (hf : p.fails h' = true)
    (hroom : p.error ≠ .supply .atomsExhausted) : p.fails h = true := by
  unfold fails at hf ⊢
  unfold error at hroom
  cases hcheck : p.check with
  | known a =>
    have := hp a hcheck
    simp only [hcheck, decide_eq_true_eq] at hf
    omega
  | operand => rfl
  | fresh => simp [hcheck] at hroom

namespace Supply

variable {s t : Supply} {f : Formula}

/-- From two marks that lie above the atoms the same place is the first to fail, if one does. -/
theorem find?_fails_eq (hst : s.mark ≤ t.mark) (hf : ∀ a ∈ f.leaves, a.index ≤ s.mark)
    (hroom : (t.encode f).1 ≠ .error (.supply .atomsExhausted)) :
    (f.places 0).find? (Place.fails s.mark) = (f.places 0).find? (Place.fails t.mark) := by
  have hknown : ∀ p ∈ f.places 0, ∀ a, p.check = .known a → a.index ≤ s.mark :=
    fun p hp a hcheck => hf a (Formula.mem_leaves_of_mem_places 0 f p hp hcheck)
  cases ht : (f.places 0).find? (Place.fails t.mark) with
  | none =>
    rw [List.find?_eq_none] at ht ⊢
    intro p hp hfail
    exact ht p hp (Place.fails_mono hst (hknown p hp) hfail)
  | some p =>
    obtain ⟨u, hu, -⟩ := encode_of_find?_eq_some ht
    rw [hu] at hroom
    have hp := List.mem_of_find?_eq_some ht
    obtain ⟨hfail, before, after, heq, hbefore⟩ := List.find?_eq_some_iff_append.mp ht
    refine List.find?_eq_some_iff_append.mpr ⟨?_, before, after, heq, fun q hq => ?_⟩
    · refine Place.fails_of_fails (fun a ha => (hknown p hp a ha).trans hst) hfail ?_
      intro herror
      exact hroom (congrArg Except.error herror)
    · have hmem : q ∈ f.places 0 := heq ▸ List.mem_append_left _ hq
      have hpass := hbefore q hq
      rw [Bool.not_eq_true'] at hpass ⊢
      rw [Bool.eq_false_iff] at hpass ⊢
      exact fun hfail => hpass (Place.fails_mono hst (hknown q hmem) hfail)

theorem clauses_clausesOf_shift {h : Nat} (d : Nat) (hf : ∀ a ∈ f.leaves, a.index ≤ h) :
    (clausesOf (h + d) f).clauses = (clausesOf h f).clauses.map (Clause.rename (shift h d)) := by
  have hempty : Cnf.empty.clauses = Cnf.empty.clauses.map (Clause.rename (shift h d)) := rfl
  rw [clausesOf, clausesOf, ← Cnf.clauses_insertAll_rename (strictMono_shift h d) hempty,
    List.map_append, Formula.definitions_shift h f le_rfl hf, Formula.label_shift h f le_rfl hf]
  rfl

/-- From a higher mark a formula is encoded in the same way, with the atoms above the lower mark
moved up, unless the atoms run out: the same error is met, or the clauses are the same but for this,
in the same order, and so is the root. -/
theorem encode_shift (hst : s.mark ≤ t.mark) (hf : ∀ a ∈ f.leaves, a.index ≤ s.mark)
    (hroom : (t.encode f).1 ≠ .error (.supply .atomsExhausted)) :
    (t.encode f).1 = (s.encode f).1.map (Encoding.shift s.mark (t.mark - s.mark)) := by
  obtain ⟨d, hd⟩ := Nat.exists_eq_add_of_le hst
  rw [hd, Nat.add_sub_cancel_left]
  have hfind := find?_fails_eq hst hf hroom
  cases ht : (f.places 0).find? (Place.fails t.mark) with
  | some p =>
    obtain ⟨u, hu, -⟩ := encode_of_find?_eq_some ht
    obtain ⟨u', hu', -⟩ := encode_of_find?_eq_some (hfind.trans ht)
    rw [hu, hu']
    rfl
  | none =>
    obtain ⟨u, hu, hmark, -⟩ := encode_of_find?_eq_none ht
    obtain ⟨u', hu', hmark', -⟩ := encode_of_find?_eq_none (hfind.trans ht)
    have hcount : ((clausesOf t.mark f).declareAtomCount u.mark).atomCount
        = ((clausesOf s.mark f).declareAtomCount u'.mark).atomCount + d := by
      rw [(encodes_of_eq_ok hu).atomCount, (encodes_of_eq_ok hu').atomCount]
      omega
    have hclauses := clauses_clausesOf_shift d hf
    have hroot := Formula.label_shift (d := d) s.mark f le_rfl hf
    rw [← hd] at hclauses hroot
    have hcnf : (clausesOf t.mark f).declareAtomCount u.mark
        = ((clausesOf s.mark f).declareAtomCount u'.mark).shift s.mark d :=
      congrArg₂ Cnf.mk hclauses hcount
    rw [hu, hu', hcnf, hroot]
    rfl

/-- From the mark 5 the atom of the conjunction is 6 in place of 3, and the clause that asserts the
root stays the last one. -/
theorem encode_shift_conjunction :
    let s : Supply := ⟨2, 0, by decide⟩
    let t : Supply := ⟨5, 0, by decide⟩
    let f : Formula := .node .and [.var ⟨1, by decide⟩, .neg (.var ⟨2, by decide⟩)]
    (∀ a ∈ f.leaves, a.index ≤ s.mark) ∧
      (t.encode f).1 = (s.encode f).1.map (Encoding.shift 2 3) ∧
      ∃ e, (t.encode f).1 = .ok e ∧ e.root = ⟨6, true⟩ ∧
        e.cnf.clauses.map (List.map Literal.toInt) = [[-2, -6], [-1, 2, 6], [1, -6], [6]] := by
  intro s t f
  have hf : ∀ a ∈ f.leaves, a.index ≤ s.mark := by decide
  have hroom : (t.encode f).1 ≠ .error (.supply .atomsExhausted) := nofun
  exact ⟨hf, encode_shift (by decide) hf hroom, _, rfl, rfl, by decide⟩

end Supply

end Clausal
