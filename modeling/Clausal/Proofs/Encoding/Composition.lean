import Clausal.Proofs.Session
import Mathlib.Algebra.GroupWithZero.Nat
import Mathlib.Data.List.Flatten
import Mathlib.Data.List.Nodup

/-!
# Encodings of one generation

Between two resets a supply hands out atoms and encodes formulas, in any order. What an encoding
takes lies above everything handed out before it and below everything handed out later, so that
the instances of several formulas can be put together: a valuation of the atoms handed out makes all
the formulas true exactly when it extends to a model of all the instances, and in one way only.
-/

namespace Clausal

/-! ## The atoms of definitions -/

namespace Formula

/-- An atom is that of a leaf, or one of the `k` atoms after the mark `n`. -/
def Involved (leaves : List Atom) (n k i : Nat) : Prop :=
  (∃ a ∈ leaves, a.index = i) ∨ n < i ∧ i ≤ n + k

theorem Involved.mono {leaves leaves' : List Atom} {n n' k k' i : Nat}
    (h : Involved leaves n k i) (hleaves : ∀ a ∈ leaves, a ∈ leaves') (hn : n' ≤ n)
    (hk : n + k ≤ n' + k') : Involved leaves' n' k' i := by
  rcases h with ⟨a, ha, rfl⟩ | hrange
  · exact .inl ⟨a, hleaves a ha, rfl⟩
  · exact .inr ⟨by omega, by omega⟩

mutual

theorem involved_label : ∀ (n : Nat) (f : Formula),
    Involved f.leaves n f.connectiveCount (f.label n).atom
  | n, var a => .inl ⟨a, List.mem_singleton_self a, rfl⟩
  | n, neg f => involved_label n f
  | n, node op fs => by
    right
    simp only [label, connectiveCount]
    omega

theorem involved_labelsOf : ∀ (n : Nat) (fs : List Formula),
    ∀ l ∈ labelsOf n fs, Involved (leavesOf fs) n (connectiveCountOf fs) l.atom
  | _, [], l, hl => absurd hl List.not_mem_nil
  | n, f :: fs, l, hl => by
    rw [connectiveCountOf]
    rcases List.mem_cons.mp hl with rfl | hl
    · exact (involved_label n f).mono (fun a => List.mem_append_left _) le_rfl (by omega)
    · exact (involved_labelsOf _ fs l hl).mono (fun a => List.mem_append_right _) (by omega)
        (by omega)

end

mutual

/-- The clauses that define the connectives have no atoms but those of the leaves and those that
the connectives take. -/
theorem involved_definitions : ∀ (n : Nat) (f : Formula),
    ∀ c ∈ f.definitions n, ∀ l ∈ c, Involved f.leaves n f.connectiveCount l.atom
  | _, var a, c, hc => absurd hc List.not_mem_nil
  | n, neg f, c, hc => involved_definitions n f c hc
  | n, node op fs, c, hc => by
    intro l hl
    rw [connectiveCount]
    rcases List.mem_append.mp hc with hc | hc
    · exact (involved_definitionsOf n fs c hc l hl).mono (fun a ha => ha) le_rfl (by omega)
    · refine Connective.atom_of_mem_definition (P := Involved _ n _) ?_ ?_ hc l hl
      · exact .inr ⟨by simp only; omega, by simp only; omega⟩
      · intro m hm
        exact (involved_labelsOf n fs m hm).mono (fun a ha => ha) le_rfl (by omega)

theorem involved_definitionsOf : ∀ (n : Nat) (fs : List Formula),
    ∀ c ∈ definitionsOf n fs, ∀ l ∈ c, Involved (leavesOf fs) n (connectiveCountOf fs) l.atom
  | _, [], c, hc => absurd hc List.not_mem_nil
  | n, f :: fs, c, hc => by
    intro l hl
    rw [connectiveCountOf]
    rcases List.mem_append.mp hc with hc | hc
    · exact (involved_definitions n f c hc l hl).mono (fun a => List.mem_append_left _) le_rfl
        (by omega)
    · exact (involved_definitionsOf _ fs c hc l hl).mono (fun a => List.mem_append_right _)
        (by omega) (by omega)

end

end Formula

namespace Supply.Encodes

variable {s t : Supply} {f : Formula} {e : Encoding}

theorem involved_of_mem (he : s.Encodes f e t) {c : Clause} (hc : c ∈ e.cnf.clauses) :
    ∀ l ∈ c, Formula.Involved f.leaves s.mark f.connectiveCount l.atom := by
  intro l hl
  rcases he.mem_clauses.mp hc with ⟨d, hd, rfl⟩ | rfl
  · exact Formula.involved_definitions s.mark f d hd l (Clause.mem_canonical.mp hl)
  · rw [List.mem_singleton.mp hl, he.root]
    exact Formula.involved_label s.mark f

/-- What is satisfied of an encoding depends on the atoms up to the mark after it. -/
theorem satisfiedBy_congr (he : s.Encodes f e t) {w w' : Nat → Bool}
    (hw : ∀ i, 0 < i → i ≤ t.mark → w i = w' i) : e.cnf.satisfiedBy w = e.cnf.satisfiedBy w' := by
  rw [Bool.eq_iff_iff, Cnf.satisfiedBy_iff, Cnf.satisfiedBy_iff]
  apply forall₂_congr
  intro c hc
  rw [Clause.satisfiedBy_congr fun l hl => ?_]
  exact hw l.atom (he.range_of_mem hc l hl).1 (he.range_of_mem hc l hl).2

/-- Two models that agree on the leaves agree on the atoms of the connectives. -/
theorem eq_of_satisfiedBy (he : s.Encodes f e t) {w w' : Nat → Bool}
    (hw : e.cnf.satisfiedBy w = true) (hw' : e.cnf.satisfiedBy w' = true)
    (hleaves : ∀ a ∈ f.leaves, w a.index = w' a.index) :
    ∀ i ∈ List.range' (s.mark + 1) f.connectiveCount, w i = w' i := by
  have hdef := he.definedBy_iff.mp (he.satisfiedBy_iff.mp hw).1
  have hdef' := he.definedBy_iff.mp (he.satisfiedBy_iff.mp hw').1
  rw [Formula.satisfiedAll_definitions_iff] at hdef hdef'
  rw [Formula.auxiliaries_congr f hleaves, ← hdef'] at hdef
  exact List.map_inj_left.mp hdef

end Supply.Encodes

/-! ## Runs of a supply -/

/-- What a supply is asked for. -/
inductive Operation where
  | fresh
  | encode (f : Formula)

/-- The number of atoms that an operation takes. -/
def Operation.demand : Operation → Nat
  | .fresh => 1
  | .encode f => f.connectiveCount

/-- A formula with its instance, and the supply before and after. -/
structure Encoded where
  formula : Formula
  before : Supply
  encoding : Encoding
  after : Supply
  encode_eq : before.encode formula = (.ok encoding, after)

namespace Encoded

/-- The atoms that were handed out for the connectives. -/
def auxiliaries (e : Encoded) : List Nat :=
  List.range' (e.before.mark + 1) (e.after.mark - e.before.mark)

theorem encodes (e : Encoded) : e.before.Encodes e.formula e.encoding e.after :=
  Supply.encodes_of_eq_ok e.encode_eq

theorem auxiliaries_eq (e : Encoded) :
    e.auxiliaries = List.range' (e.before.mark + 1) e.formula.connectiveCount := by
  have hsub : e.after.mark - e.before.mark = e.formula.connectiveCount := by
    rw [e.encodes.mark]
    omega
  rw [auxiliaries, hsub]

end Encoded

/-- A supply in use: the atoms it has handed out on their own and the formulas it has encoded, in
both cases the latest first. -/
structure History where
  supply : Supply
  atoms : List Atom
  encoded : List Encoded

namespace History

/-- The history of a supply of which no use is made yet. -/
def start (s : Supply) : History := ⟨s, [], []⟩

def perform (h : History) : Operation → Except Error History
  | .fresh =>
    match h.supply.fresh with
    | .error x => .error (.supply x)
    | .ok (a, t) => .ok { h with supply := t, atoms := a :: h.atoms }
  | .encode f =>
    match heq : h.supply.encode f with
    | (.error x, _) => .error x
    | (.ok e, t) => .ok { h with supply := t, encoded := ⟨f, h.supply, e, t, heq⟩ :: h.encoded }

/-- Performs operations in turn, up to the first that fails. -/
def performAll (h : History) : List Operation → Except Error History
  | [] => .ok h
  | op :: ops =>
    match h.perform op with
    | .error x => .error x
    | .ok h => performAll h ops

/-- A formula may be encoded if its connectives have operands and its atoms were handed out on
their own before. -/
def Allows (h : History) : Operation → Prop
  | .fresh => True
  | .encode f => f.hasOperands = true ∧ ∀ a ∈ f.leaves, a ∈ h.atoms

def AllowsAll (h : History) : List Operation → Prop
  | [] => True
  | op :: ops => h.Allows op ∧ ∀ h', h.perform op = .ok h' → AllowsAll h' ops

/-- A valuation makes every formula true. -/
def MakesTrue (h : History) (v : Atom → Bool) : Prop :=
  ∀ e ∈ h.encoded, e.formula.eval v = true

/-- A valuation satisfies the clauses of every instance. -/
def Satisfies (h : History) (w : Nat → Bool) : Prop :=
  ∀ e ∈ h.encoded, e.encoding.cnf.satisfiedBy w = true

/-- The instances can be put together. -/
structure Composes (h : History) : Prop where
  /-- No atom is taken by the connectives of two formulas. -/
  disjoint : h.encoded.Pairwise fun e e' => e.auxiliaries.Disjoint e'.auxiliaries
  /-- No atom handed out on its own is taken by a connective. -/
  apart : ∀ e ∈ h.encoded, ∀ a ∈ h.atoms, a.index ∉ e.auxiliaries
  /-- The clauses of an instance have no other atoms than those of the formula and its own. -/
  occurs : ∀ e ∈ h.encoded, ∀ c ∈ e.encoding.cnf.clauses, ∀ l ∈ c,
    (∃ a ∈ e.formula.leaves, a.index = l.atom) ∨ l.atom ∈ e.auxiliaries
  extends_iff : ∀ v : Atom → Bool,
    (∃ w, (∀ a ∈ h.atoms, w a.index = v a) ∧ h.Satisfies w) ↔ h.MakesTrue v
  unique : ∀ w w', h.Satisfies w → h.Satisfies w' → (∀ a ∈ h.atoms, w a.index = w' a.index) →
    ∀ e ∈ h.encoded, ∀ i ∈ e.auxiliaries, w i = w' i

/-! ## One operation -/

theorem perform_fresh_of_lt {h : History} (hlt : h.supply.mark < atomMax) :
    h.perform .fresh = .ok { h with
      supply := ⟨h.supply.mark + 1, h.supply.generation, hlt⟩
      atoms := ⟨h.supply.mark + 1, Nat.succ_pos _⟩ :: h.atoms } := by
  rw [perform, Supply.fresh, dif_pos hlt]

theorem perform_encode_of_eq {h : History} {f : Formula} {e : Encoding} {t : Supply}
    (heq : h.supply.encode f = (.ok e, t)) :
    h.perform (.encode f) =
      .ok { h with supply := t, encoded := ⟨f, h.supply, e, t, heq⟩ :: h.encoded } := by
  rw [perform]
  split
  next hx =>
    rw [heq] at hx
    cases hx
  next hx =>
    rw [heq] at hx
    cases hx
    rfl

/-- The books of a history that began with the supply `s` are in order. -/
structure Balanced (s : Supply) (h : History) : Prop where
  /-- Everything taken from the supply is accounted for once. -/
  taken : (h.atoms.map Atom.index ++ h.encoded.flatMap Encoded.auxiliaries).Perm
    (List.range' (s.mark + 1) (h.supply.mark - s.mark))
  mark_le : s.mark ≤ h.supply.mark
  after_le : ∀ e ∈ h.encoded, e.after.mark ≤ h.supply.mark
  leaves : ∀ e ∈ h.encoded, ∀ a ∈ e.formula.leaves, a ∈ h.atoms
  extend : ∀ v : Atom → Bool, h.MakesTrue v →
    ∃ w, (∀ a ∈ h.atoms, w a.index = v a) ∧ h.Satisfies w

theorem balanced_start (s : Supply) : Balanced s (start s) where
  taken := by simp [start]
  mark_le := le_rfl
  after_le _ he := absurd he List.not_mem_nil
  leaves _ he := absurd he List.not_mem_nil
  extend v _ := ⟨valuesOf v, fun a _ => valuesOf_index v a, fun _ he => absurd he List.not_mem_nil⟩

namespace Balanced

variable {s : Supply} {h : History}

theorem index_le (hb : Balanced s h) {a : Atom} (ha : a ∈ h.atoms) : a.index ≤ h.supply.mark := by
  have hmem := hb.taken.subset (List.mem_append_left _ (List.mem_map_of_mem ha))
  rw [List.mem_range'_1] at hmem
  have := hb.mark_le
  omega

/-- Values above the mark do not matter to the instances made so far. -/
theorem satisfies_congr (hb : Balanced s h) {w w' : Nat → Bool}
    (hw : ∀ i, 0 < i → i ≤ h.supply.mark → w' i = w i) (hsat : h.Satisfies w) :
    h.Satisfies w' := by
  intro e he
  rw [e.encodes.satisfiedBy_congr fun i hpos hi => hw i hpos (hi.trans (hb.after_le e he))]
  exact hsat e he

theorem perform_fresh (hb : Balanced s h) (hroom : h.supply.mark + 1 ≤ atomMax) :
    ∃ h', h.perform .fresh = .ok h' ∧ h'.supply.mark = h.supply.mark + 1 ∧ Balanced s h' := by
  have hmark := hb.mark_le
  have hsucc : h.supply.mark + 1 - s.mark = h.supply.mark - s.mark + 1 := by omega
  have hlast : s.mark + 1 + (h.supply.mark - s.mark) = h.supply.mark + 1 := by omega
  refine ⟨_, perform_fresh_of_lt hroom, rfl, {
    taken := ?_
    mark_le := Nat.le_succ_of_le hmark
    after_le := fun e he => (hb.after_le e he).trans (Nat.le_succ _)
    leaves := fun e he a ha => List.mem_cons_of_mem _ (hb.leaves e he a ha)
    extend := fun v hv => ?_ }⟩
  · simp only [hsucc, List.range'_1_concat, hlast]
    exact (hb.taken.cons _).trans (List.perm_append_singleton _ _).symm
  -- the values of the atoms handed out so far stay, and the new atom takes the value asked for
  · obtain ⟨w, hatoms, hsat⟩ := hb.extend v hv
    refine ⟨Function.update w (h.supply.mark + 1) (v ⟨h.supply.mark + 1, Nat.succ_pos _⟩), ?_, ?_⟩
    · intro a ha
      rcases List.mem_cons.mp ha with rfl | ha
      · exact Function.update_self _ _ _
      · have hle := hb.index_le ha
        rw [Function.update_of_ne (by omega)]
        exact hatoms a ha
    · exact hb.satisfies_congr (fun i _ hi => Function.update_of_ne (by omega) _ _) hsat

/-- A model of the instances made so far extends to one of a new instance as well, and the two agree
on the atoms handed out. -/
theorem extend_encode (hb : Balanced s h) {f : Formula} {e : Encoding} {t : Supply}
    (he : h.supply.Encodes f e t) (hleaves : ∀ a ∈ f.leaves, a ∈ h.atoms) {v : Atom → Bool}
    (hv : h.MakesTrue v) (hf : f.eval v = true) :
    ∃ w, (∀ a ∈ h.atoms, w a.index = v a) ∧ h.Satisfies w ∧ e.cnf.satisfiedBy w = true := by
  obtain ⟨w, hw, hsat⟩ := hb.extend v hv
  have hvalue : (f.eval fun a => w a.index) = true := by
    rw [Formula.eval_congr f fun a ha => hw a (hleaves a ha)]
    exact hf
  obtain ⟨w', hsat', hagree⟩ :=
    he.exists_satisfiedBy (fun a ha => hb.index_le (hleaves a ha)) hvalue
  refine ⟨w', fun a ha => (hagree a (hb.index_le ha)).trans (hw a ha), ?_, hsat'⟩
  exact hb.satisfies_congr (fun i hpos hi => hagree ⟨i, hpos⟩ hi) hsat

theorem perform_encode (hb : Balanced s h) {f : Formula} (hf : h.Allows (.encode f))
    (hroom : h.supply.mark + f.connectiveCount ≤ atomMax) :
    ∃ h', h.perform (.encode f) = .ok h' ∧ h'.supply.mark = h.supply.mark + f.connectiveCount ∧
      Balanced s h' := by
  obtain ⟨hops, hleaves⟩ := hf
  have hmark := hb.mark_le
  obtain ⟨e, t, heq, hafter⟩ :=
    Supply.exists_encode_eq_ok hops (fun a ha => hb.index_le (hleaves a ha)) hroom
  have hle : h.supply.mark ≤ t.mark := by omega
  refine ⟨_, perform_encode_of_eq heq, hafter, {
    taken := ?_
    mark_le := hmark.trans hle
    after_le := List.forall_mem_cons.mpr ⟨le_rfl, fun d hd => (hb.after_le d hd).trans hle⟩
    leaves := List.forall_mem_cons.mpr ⟨hleaves, hb.leaves⟩
    extend := fun v hv => ?_ }⟩
  -- the atoms of the connectives come after all that was handed out before
  · have hsum : t.mark - s.mark = (h.supply.mark - s.mark) + (t.mark - h.supply.mark) := by omega
    have hnext : h.supply.mark + 1 = s.mark + 1 + (h.supply.mark - s.mark) := by omega
    simp only [List.flatMap_cons, Encoded.auxiliaries, hsum, ← List.range'_append_1, ← hnext]
    refine (List.perm_append_comm_assoc _ _ _).trans ?_
    exact List.perm_append_comm.trans (hb.taken.append_right _)
  · obtain ⟨hnew, hold⟩ := List.forall_mem_cons.mp hv
    obtain ⟨w, hw, hsat, hmodel⟩ :=
      hb.extend_encode (Supply.encodes_of_eq_ok heq) hleaves hold hnew
    exact ⟨w, hw, List.forall_mem_cons.mpr ⟨hmodel, hsat⟩⟩

theorem perform (hb : Balanced s h) {op : Operation} (hop : h.Allows op)
    (hroom : h.supply.mark + op.demand ≤ atomMax) :
    ∃ h', h.perform op = .ok h' ∧ h'.supply.mark = h.supply.mark + op.demand ∧ Balanced s h' := by
  cases op with
  | fresh => exact hb.perform_fresh hroom
  | encode f => exact hb.perform_encode hop hroom

/-! ## Runs of operations -/

theorem performAll {ops : List Operation} (hb : Balanced s h) (hops : h.AllowsAll ops)
    (hroom : h.supply.mark + (ops.map Operation.demand).sum ≤ atomMax) :
    ∃ h', h.performAll ops = .ok h' ∧
      h'.supply.mark = h.supply.mark + (ops.map Operation.demand).sum ∧ Balanced s h' := by
  induction ops generalizing h with
  | nil => exact ⟨h, rfl, rfl, hb⟩
  | cons op ops ih =>
    rw [List.map_cons, List.sum_cons] at hroom
    obtain ⟨hop, hrest⟩ := hops
    obtain ⟨h₁, hperform, hmark₁, hb₁⟩ := hb.perform hop (by omega)
    obtain ⟨h₂, hrun, hmark₂, hb₂⟩ := ih hb₁ (hrest h₁ hperform) (by omega)
    refine ⟨h₂, ?_, ?_, hb₂⟩
    · rw [History.performAll, hperform]
      exact hrun
    · rw [List.map_cons, List.sum_cons]
      omega

theorem makesTrue_of_satisfies (hb : Balanced s h) {v : Atom → Bool} {w : Nat → Bool}
    (hw : ∀ a ∈ h.atoms, w a.index = v a) (hsat : h.Satisfies w) : h.MakesTrue v := by
  intro e he
  rw [← Formula.eval_congr e.formula fun a ha => hw a (hb.leaves e he a ha)]
  exact e.encodes.eval_of_satisfiedBy (hsat e he)

theorem composes (hb : Balanced s h) : h.Composes := by
  have hnodup := hb.taken.nodup_iff.mpr List.nodup_range'
  obtain ⟨-, hflat, hdisjoint⟩ := List.nodup_append'.mp hnodup
  exact {
    disjoint := (List.nodup_flatMap.mp hflat).2
    apart := fun e he a ha hmem =>
      hdisjoint (List.mem_map_of_mem ha) (List.mem_flatMap.mpr ⟨e, he, hmem⟩)
    occurs := by
      intro e he c hc l hl
      refine (e.encodes.involved_of_mem hc l hl).imp_right fun hrange => ?_
      rw [e.auxiliaries_eq, List.mem_range'_1]
      omega
    extends_iff := by
      intro v
      refine ⟨fun hw => ?_, hb.extend v⟩
      obtain ⟨w, hw, hsat⟩ := hw
      exact hb.makesTrue_of_satisfies hw hsat
    unique := by
      intro w w' hsat hsat' hagree e he
      rw [e.auxiliaries_eq]
      exact e.encodes.eq_of_satisfiedBy (hsat e he) (hsat' e he)
        fun a ha => hagree a (hb.leaves e he a ha) }

end Balanced

/-- Whatever is asked of a supply, in any order and from any mark, the encodings compose, if each
formula keeps the rule and there are atoms enough. -/
theorem performAll_composes (s : Supply) (ops : List Operation)
    (hops : (start s).AllowsAll ops)
    (hroom : s.mark + (ops.map Operation.demand).sum ≤ atomMax) :
    ∃ h, (start s).performAll ops = .ok h ∧
      h.supply.mark = s.mark + (ops.map Operation.demand).sum ∧ h.Composes := by
  obtain ⟨h, hrun, hmark, hb⟩ := (balanced_start s).performAll hops hroom
  exact ⟨h, hrun, hmark, hb.composes⟩

/-- Two atoms and a conjunction of them, then another atom and its disjunction with the first: of
five atoms from 6 on, 8 and 10 are taken by connectives. -/
theorem performAll_composes_interleaved :
    let s : Supply := ⟨5, 1, by decide⟩
    let ops : List Operation :=
      [.fresh, .fresh, .encode (.node .and [.var ⟨6, by decide⟩, .neg (.var ⟨7, by decide⟩)]),
        .fresh, .encode (.node .or [.var ⟨9, by decide⟩, .var ⟨6, by decide⟩])]
    (start s).AllowsAll ops ∧ s.mark + (ops.map Operation.demand).sum ≤ atomMax ∧
      ∃ h, (start s).performAll ops = .ok h ∧ h.supply.mark = 10 ∧
        h.atoms.map Atom.index = [9, 7, 6] ∧ h.encoded.map Encoded.auxiliaries = [[10], [8]] ∧
        h.Composes := by
  intro s ops
  have hops : (start s).AllowsAll ops := by
    refine ⟨trivial, fun h₁ hp => ?_⟩
    cases hp
    refine ⟨trivial, fun h₂ hp => ?_⟩
    cases hp
    refine ⟨⟨rfl, by decide⟩, fun h₃ hp => ?_⟩
    cases hp
    refine ⟨trivial, fun h₄ hp => ?_⟩
    cases hp
    exact ⟨⟨rfl, by decide⟩, fun h₅ hp => trivial⟩
  have hroom : s.mark + (ops.map Operation.demand).sum ≤ atomMax := by decide
  obtain ⟨h, hrun, hmark, hcomposes⟩ := performAll_composes s ops hops hroom
  refine ⟨hops, hroom, h, hrun, hmark, ?_, ?_, hcomposes⟩
  · cases hrun
    rfl
  · cases hrun
    rfl

end History

end Clausal
