import Clausal.Proofs.Encoding.Gates
import Clausal.Proofs.Encoding.Models
import Mathlib.Algebra.BigOperators.Group.Finset.Basic
import Mathlib.Algebra.GroupWithZero.Nat

/-!
# The size of an encoding

An instance is a set of clauses, so its size depends on which of the clauses added to it are the
same. The clauses of different connectives differ in their greatest atom, and those of one
connective are the same only where operands have the same literal: a connective with `d` distinct
literals of operands has `d` clauses of two literals and one of `d + 1`.
-/

namespace Clausal

open Finset

/-! ## Clauses as sets -/

/-- The canonical forms of clauses. -/
def canonicals (cs : List Clause) : Finset Clause := (cs.map Clause.canonical).toFinset

theorem mem_canonicals {cs : List Clause} {d : Clause} :
    d ∈ canonicals cs ↔ ∃ c ∈ cs, c.canonical = d := by
  simp [canonicals]

theorem canonicals_append (cs ds : List Clause) :
    canonicals (cs ++ ds) = canonicals cs ∪ canonicals ds := by
  rw [canonicals, List.map_append, List.toFinset_append]
  rfl

theorem Clause.length_canonical (c : Clause) : c.canonical.length = c.toFinset.card := by
  have hmem : c.canonical.toFinset = c.toFinset := by
    ext l
    rw [List.mem_toFinset, List.mem_toFinset, mem_canonical]
  rw [← hmem, List.toFinset_card_of_nodup (increasing_canonical c).nodup]

theorem toFinset_map_neg (ls : List Literal) :
    (ls.map (- ·)).toFinset = ls.toFinset.image (- ·) := by
  ext l
  simp

/-- The sum over clauses of a weight that depends on the number of literals. -/
def weigh (weight : Nat → Nat) (S : Finset Clause) : Nat := ∑ c ∈ S, weight c.length

/-! ## One connective -/

/-- A disjunction is defined like a conjunction, with the literals turned round. -/
theorem Connective.definition_or (z : Literal) (ls : List Literal) :
    definition .or z ls = definition .and (-z) (ls.map (- ·)) := by
  simp [definition, Function.comp_def]

theorem Clause.length_canonical_pair {z l : Literal} (h : l.atom < z.atom) :
    (canonical [-z, l]).length = 2 := by
  have hne : -z ∉ ({l} : Finset Literal) := by
    rw [mem_singleton]
    rintro rfl
    exact h.ne rfl
  rw [length_canonical, List.toFinset_cons, List.toFinset_cons, List.toFinset_nil,
    insert_empty_eq, card_insert_of_notMem hne, card_singleton]

theorem Clause.length_canonical_long {z : Literal} {ls : List Literal}
    (h : ∀ l ∈ ls, l.atom < z.atom) :
    (canonical (z :: ls.map (- ·))).length = ls.toFinset.card + 1 := by
  have hz : z ∉ ls.toFinset.image (- ·) := by
    rw [mem_image]
    rintro ⟨l, hl, rfl⟩
    exact (h l (List.mem_toFinset.mp hl)).ne rfl
  rw [length_canonical, List.toFinset_cons, toFinset_map_neg, card_insert_of_notMem hz,
    card_image_of_injective _ Literal.neg_injective]

theorem Connective.mem_or_neg_mem_of_mem_definition {op : Connective} {z : Literal}
    {ls : List Literal} {c : Clause} (hc : c ∈ op.definition z ls) : z ∈ c ∨ -z ∈ c := by
  cases op <;> simp only [definition, List.mem_append, List.mem_map, List.mem_singleton] at hc
  · rcases hc with ⟨l, hl, rfl⟩ | rfl
    · exact .inr List.mem_cons_self
    · exact .inl List.mem_cons_self
  · rcases hc with ⟨l, hl, rfl⟩ | rfl
    · exact .inl List.mem_cons_self
    · exact .inr List.mem_cons_self

/-- The clause of two literals tells which literal it is for. -/
theorem Clause.canonical_pair_injOn (z : Literal) (S : Set Literal)
    (h : ∀ l ∈ S, l.atom < z.atom) : Set.InjOn (fun l => canonical [-z, l]) S := by
  intro l hl m _ heq
  have hmem := (mem_iff_of_canonical_eq heq l).mp (by simp)
  rcases List.mem_pair.mp hmem with rfl | rfl
  · exact absurd rfl (h _ hl).ne
  · rfl

theorem Clause.canonical_pair_ne_long {z l : Literal} (h : l.atom < z.atom) (ls : List Literal) :
    canonical [-z, l] ≠ canonical (z :: ls.map (- ·)) := by
  intro heq
  -- the long clause asserts the atom that the other denies
  have hmem := (mem_iff_of_canonical_eq heq z).mpr List.mem_cons_self
  rcases List.mem_pair.mp hmem with hz | rfl
  · exact Literal.neg_ne_self z hz.symm
  · exact absurd rfl h.ne

theorem Connective.weigh_definition_and (weight : Nat → Nat) {z : Literal} {ls : List Literal}
    (h : ∀ l ∈ ls, l.atom < z.atom) :
    weigh weight (canonicals (definition .and z ls))
      = ls.toFinset.card * weight 2 + weight (ls.toFinset.card + 1) := by
  have hS : ∀ l ∈ ls.toFinset, l.atom < z.atom := fun l hl => h l (List.mem_toFinset.mp hl)
  have hsplit : canonicals (definition .and z ls)
      = ls.toFinset.image (fun l => Clause.canonical [-z, l])
        ∪ {Clause.canonical (z :: ls.map (- ·))} := by
    ext d
    simp [mem_canonicals, definition, or_and_right, exists_or, or_comm, eq_comm]
  have hdisjoint : Disjoint (ls.toFinset.image (fun l => Clause.canonical [-z, l]))
      {Clause.canonical (z :: ls.map (- ·))} := by
    rw [disjoint_singleton_right, mem_image]
    rintro ⟨l, hl, heq⟩
    exact Clause.canonical_pair_ne_long (hS l hl) ls heq
  have hpairs : ∑ l ∈ ls.toFinset, weight (Clause.canonical [-z, l]).length
      = ls.toFinset.card * weight 2 :=
    sum_const_nat fun l hl => congrArg weight (Clause.length_canonical_pair (hS l hl))
  rw [weigh, hsplit, sum_union hdisjoint, sum_image (Clause.canonical_pair_injOn z _ hS), hpairs,
    sum_singleton, Clause.length_canonical_long h]

namespace Gate

/-- The number of distinct literals among the operands. -/
def distinct (g : Gate) : Nat := g.operands.toFinset.card

theorem distinct_le (g : Gate) : g.distinct ≤ g.operands.length :=
  List.toFinset_card_le g.operands

/-- A connective has a clause of two literals for each distinct literal of its operands, and one
clause of all of them. -/
theorem weigh_clauses (weight : Nat → Nat) {g : Gate} (h : g.IsAbove) :
    weigh weight (canonicals g.clauses) = g.distinct * weight 2 + weight (g.distinct + 1) := by
  obtain ⟨op, ls, z⟩ := g
  cases op with
  | and => exact Connective.weigh_definition_and weight h
  | or =>
    have hneg : ∀ l ∈ ls.map (- ·), l.atom < (-z).atom := List.forall_mem_map.mpr h
    have hcard : (ls.map (- ·)).toFinset.card = ls.toFinset.card := by
      rw [toFinset_map_neg, card_image_of_injective _ Literal.neg_injective]
    rw [clauses, Connective.definition_or, Connective.weigh_definition_and weight hneg, hcard]
    rfl

/-- The greatest atom in each clause of a connective is its own. -/
theorem maxAtom_of_mem_clauses {g : Gate} (h : g.IsAbove) {c : Clause} (hc : c ∈ g.clauses) :
    c.maxAtom = g.literal.atom := by
  apply Nat.le_antisymm
  · exact Clause.maxAtom_le <|
      Connective.atom_of_mem_definition (P := (· ≤ _)) le_rfl (fun l hl => (h l hl).le) hc
  · rcases Connective.mem_or_neg_mem_of_mem_definition hc with hz | hz
    · exact Clause.atom_le_maxAtom hz
    · rw [← Literal.atom_neg]
      exact Clause.atom_le_maxAtom hz

end Gate

/-! ## All connectives -/

/-- A connective shares no clause with those that are given later atoms. -/
theorem disjoint_canonicals_clauses {g : Gate} {gs : List Gate} (hg : g.IsAbove)
    (hgs : ∀ g' ∈ gs, g'.IsAbove) (hlt : ∀ g' ∈ gs, g.literal.atom < g'.literal.atom) :
    Disjoint (canonicals g.clauses) (canonicals (gs.flatMap Gate.clauses)) := by
  rw [disjoint_left]
  intro d hd hd'
  obtain ⟨c, hc, rfl⟩ := mem_canonicals.mp hd
  obtain ⟨c', hc', heq⟩ := mem_canonicals.mp hd'
  obtain ⟨g', hg', hc'⟩ := List.mem_flatMap.mp hc'
  have hmax := congrArg Clause.maxAtom heq
  rw [Clause.maxAtom_canonical, Clause.maxAtom_canonical, Gate.maxAtom_of_mem_clauses hg hc,
    Gate.maxAtom_of_mem_clauses (hgs g' hg') hc'] at hmax
  exact (hlt g' hg').ne' hmax

theorem weigh_canonicals_gates (weight : Nat → Nat) {gs : List Gate} (habove : ∀ g ∈ gs, g.IsAbove)
    (hgs : gs.Pairwise fun g g' => g.literal.atom < g'.literal.atom) :
    weigh weight (canonicals (gs.flatMap Gate.clauses))
      = (gs.map fun g => g.distinct * weight 2 + weight (g.distinct + 1)).sum := by
  induction gs with
  | nil => rfl
  | cons g gs ih =>
    obtain ⟨hg, hrest⟩ := List.forall_mem_cons.mp habove
    obtain ⟨hlt, hpairwise⟩ := List.pairwise_cons.mp hgs
    have hunion : weigh weight (canonicals ((g :: gs).flatMap Gate.clauses))
        = weigh weight (canonicals g.clauses)
          + weigh weight (canonicals (gs.flatMap Gate.clauses)) := by
      rw [List.flatMap_cons, canonicals_append]
      exact sum_union (disjoint_canonicals_clauses hg hrest hlt)
    rw [hunion, Gate.weigh_clauses weight hg, ih hrest hpairwise, List.map_cons, List.sum_cons]

namespace Formula

theorem pairwise_gates (n : Nat) (f : Formula) :
    (f.gates n).Pairwise fun g g' => g.literal.atom < g'.literal.atom := by
  have hlt : ((f.gates n).map Gate.literal).Pairwise fun l m => l.atom < m.atom := by
    rw [map_literal_gates, asserting, List.pairwise_map]
    exact List.pairwise_lt_range'
  rwa [List.pairwise_map] at hlt

theorem length_labelsOf (n : Nat) (fs : List Formula) : (labelsOf n fs).length = fs.length := by
  induction fs generalizing n with
  | nil => rfl
  | cons f fs ih => rw [labelsOf, List.length_cons, List.length_cons, ih]

mutual

/-- The number of atoms, negations and connectives that a formula is built from, each counted as
often as it occurs. -/
def nodeCount : Formula → Nat
  | var _ => 1
  | neg f => 1 + f.nodeCount
  | node _ fs => 1 + nodeCountOf fs

def nodeCountOf : List Formula → Nat
  | [] => 0
  | f :: fs => f.nodeCount + nodeCountOf fs

end

mutual

theorem connectiveCount_le : ∀ f : Formula, f.connectiveCount ≤ f.nodeCount
  | var _ => Nat.zero_le _
  | neg f => (connectiveCount_le f).trans (Nat.le_add_left _ _)
  | node _ fs => Nat.add_le_add_left (connectiveCountOf_le fs) 1

theorem connectiveCountOf_le : ∀ fs : List Formula, connectiveCountOf fs ≤ nodeCountOf fs
  | [] => le_rfl
  | f :: fs => Nat.add_le_add (connectiveCount_le f) (connectiveCountOf_le fs)

end

end Formula

/-- The number of operands of connectives. -/
def operandCount (gs : List Gate) : Nat := (gs.map fun g => g.operands.length).sum

theorem operandCount_append (gs gs' : List Gate) :
    operandCount (gs ++ gs') = operandCount gs + operandCount gs' := by
  rw [operandCount, List.map_append, List.sum_append]
  rfl

theorem sum_distinct_le (a : Nat) (gs : List Gate) :
    (gs.map fun g => a * g.distinct + 1).sum ≤ a * operandCount gs + gs.length := by
  induction gs with
  | nil => exact Nat.zero_le _
  | cons g gs ih =>
    have hg := Nat.mul_le_mul_left a g.distinct_le
    have hcons : operandCount (g :: gs) = g.operands.length + operandCount gs := rfl
    rw [List.map_cons, List.sum_cons, List.length_cons, hcons, Nat.mul_add]
    omega

namespace Formula

mutual

/-- Every part of a formula but the formula itself is the operand of one connective at most. -/
theorem operandCount_gates_lt : ∀ (n : Nat) (f : Formula), operandCount (f.gates n) < f.nodeCount
  | _, var _ => Nat.one_pos
  | n, neg f => (operandCount_gates_lt n f).trans_le (Nat.le_add_left _ _)
  | n, node op fs => by
    have hfs := operandCount_gatesOf_le n fs
    have hlast : operandCount [⟨op, labelsOf n fs, ⟨n + connectiveCountOf fs + 1, true⟩⟩]
        = fs.length := length_labelsOf n fs
    rw [gates, operandCount_append, hlast, nodeCount]
    omega

theorem operandCount_gatesOf_le : ∀ (n : Nat) (fs : List Formula),
    operandCount (gatesOf n fs) + fs.length ≤ nodeCountOf fs
  | _, [] => le_rfl
  | n, f :: fs => by
    have hf := operandCount_gates_lt n f
    have hfs := operandCount_gatesOf_le (n + f.connectiveCount) fs
    rw [gatesOf, operandCount_append, nodeCountOf, List.length_cons]
    omega

end

end Formula

/-! ## The whole encoding -/

namespace Supply

variable {s t : Supply} {f : Formula} {e : Encoding}

namespace Encodes

theorem toFinset_clauses (he : s.Encodes f e t) :
    e.cnf.clauses.toFinset = canonicals (f.definitions s.mark) ∪ {[e.root]} := by
  ext d
  rw [List.mem_toFinset, he.mem_clauses, mem_union, mem_canonicals, mem_singleton]

theorem nodup_clauses (he : s.Encodes f e t) : e.cnf.clauses.Nodup := by
  rw [he.cnf]
  exact (Cnf.increasing_insertAll (Cnf.wellFormed_new 0).increasing _).nodup

/-- A clause that defines a connective is not the one that asserts the root. -/
theorem disjoint_root (he : s.Encodes f e t) :
    Disjoint (canonicals (f.definitions s.mark)) {[e.root]} := by
  rw [disjoint_singleton_right, mem_canonicals]
  rintro ⟨c, hc, heq⟩
  exact (he.isDefinition hc).canonical_ne e.root heq

theorem sum_weight (he : s.Encodes f e t) (weight : Nat → Nat) :
    (e.cnf.clauses.map fun c => weight c.length).sum = weight 1
      + ((f.gates s.mark).map fun g => g.distinct * weight 2 + weight (g.distinct + 1)).sum := by
  have habove : ∀ g ∈ f.gates s.mark, g.IsAbove :=
    Formula.isAbove_of_mem_gates s.mark 0 f he.find?
  have hgates := weigh_canonicals_gates weight habove (Formula.pairwise_gates s.mark f)
  rw [Formula.flatMap_clauses_gates] at hgates
  rw [← List.sum_toFinset _ he.nodup_clauses, he.toFinset_clauses, sum_union he.disjoint_root,
    sum_singleton, ← hgates, Nat.add_comm]
  rfl

theorem clauseCount_eq (he : s.Encodes f e t) :
    e.cnf.clauseCount = 1 + ((f.gates s.mark).map fun g => g.distinct + 1).sum := by
  have hsum := he.sum_weight fun _ => 1
  simpa [Cnf.clauseCount] using hsum

theorem literalCount_eq (he : s.Encodes f e t) :
    e.cnf.literalCount = 1 + ((f.gates s.mark).map fun g => 3 * g.distinct + 1).sum := by
  have hsum := he.sum_weight id
  have hthree : ∀ g : Gate, g.distinct * 2 + (g.distinct + 1) = 3 * g.distinct + 1 := by
    intro g
    omega
  simp only [id, hthree] at hsum
  rw [← hsum, Cnf.literalCount, List.sum, List.foldr_map]

end Encodes

/-- What an encoding that succeeds takes from the supply, and how large its instance is. -/
structure Sized (s : Supply) (f : Formula) (e : Encoding) (t : Supply) : Prop where
  mark : t.mark = s.mark + f.connectiveCount
  generation : t.generation = s.generation
  atomCount : e.cnf.atomCount = s.mark + f.connectiveCount
  /-- All connectives are completed, from left to right and each after those of its operands. -/
  gates : s.gates f = f.gates s.mark
  /-- In this order they are given the atoms after the mark. -/
  literals : (s.gates f).map Gate.literal = asserting s.mark f.connectiveCount
  clauseCount : e.cnf.clauseCount = 1 + ((s.gates f).map fun g => g.distinct + 1).sum
  literalCount : e.cnf.literalCount = 1 + ((s.gates f).map fun g => 3 * g.distinct + 1).sum
  clauseCount_le : e.cnf.clauseCount ≤ 2 * f.nodeCount
  literalCount_le : e.cnf.literalCount ≤ 4 * f.nodeCount

/-- What an encoding that fails has taken from the supply. -/
structure Stopped (s : Supply) (f : Formula) (x : Error) (t : Supply) : Prop where
  mark : t.mark = s.mark + (s.gates f).length
  generation : t.generation = s.generation
  /-- The connectives completed are those before the first place that fails. -/
  place : ∃ p, (f.places 0).find? (Place.fails s.mark) = some p ∧ x = p.error ∧
    s.gates f <+: f.gates s.mark ∧ (s.gates f).length = p.before

theorem sized_of_encodes (he : s.Encodes f e t) (hgen : t.generation = s.generation) :
    s.Sized f e t := by
  have hgates : s.gates f = f.gates s.mark := (completed_gates s f).eq_all he.find?
  have hcount := f.connectiveCount_le
  have hoperands := Formula.operandCount_gates_lt s.mark f
  have hlength := Formula.length_gates s.mark f
  have hclauses := he.clauseCount_eq
  have hliterals := he.literalCount_eq
  have hshort := sum_distinct_le 1 (f.gates s.mark)
  have hlong := sum_distinct_le 3 (f.gates s.mark)
  simp only [Nat.one_mul] at hshort
  exact {
    mark := he.mark
    generation := hgen
    atomCount := he.atomCount.trans he.mark
    gates := hgates
    literals := by rw [hgates, Formula.map_literal_gates]
    clauseCount := by rw [hgates, hclauses]
    literalCount := by rw [hgates, hliterals]
    clauseCount_le := by omega
    literalCount_le := by omega }

theorem stopped_of_find? {p : Place} (hp : (f.places 0).find? (Place.fails s.mark) = some p)
    (hmark : t.mark = s.mark + p.before) (hgen : t.generation = s.generation) :
    s.Stopped f p.error t := by
  have hgates := completed_gates s f
  generalize hgs : s.gates f = gs at hgates
  cases hgates with
  | complete hfind => cases hfind.symm.trans hp
  | @before q _ hfind hstart hlength =>
    cases hfind.symm.trans hp
    rw [Nat.zero_add] at hlength
    exact {
      mark := by rw [hgs, hlength, hmark]
      generation := hgen
      place := ⟨p, hp, rfl, by rw [hgs]; exact hstart, by rw [hgs]; exact hlength⟩ }

/-- An encoding gives the atoms after the mark to the connectives, from left to right and each after
those of its operands. If it succeeds, the size of its instance is exactly that of the connectives,
where operands with the same literal count once; if it fails, it has taken an atom for each
connective completed before the place where it fails. -/
theorem encode_size (s : Supply) (f : Formula) :
    (∀ e t, s.encode f = (.ok e, t) → s.Sized f e t) ∧
      ∀ x t, s.encode f = (.error x, t) → s.Stopped f x t := by
  cases hf : (f.places 0).find? (Place.fails s.mark) with
  | none =>
    obtain ⟨u, hu, -, hgen⟩ := encode_of_find?_eq_none hf
    refine ⟨fun e t h => ?_, fun x t h => ?_⟩
    · obtain rfl : u = t := congrArg Prod.snd (hu.symm.trans h)
      exact sized_of_encodes (encodes_of_eq_ok h) hgen
    · cases hu.symm.trans h
  | some p =>
    obtain ⟨u, hu, hmark, hgen⟩ := encode_of_find?_eq_some hf
    refine ⟨fun e t h => ?_, fun x t h => ?_⟩
    · cases hu.symm.trans h
    · cases hu.symm.trans h
      exact stopped_of_find? hf hmark hgen

/-- In the first formula both connectives have operands with the same literal; in the second the
disjunction is completed before the unknown atom is met. -/
theorem encode_size_repeated :
    let s : Supply := ⟨2, 7, by decide⟩
    let x : Formula := .var ⟨1, by decide⟩
    let y : Formula := .var ⟨2, by decide⟩
    let f : Formula := .node .and [x, .node .or [y, .neg (.neg y), .neg y], .neg (.neg x)]
    let g : Formula := .node .and [.node .or [x, y], .var ⟨9, by decide⟩, .node .or [x]]
    (∃ e t, s.encode f = (.ok e, t) ∧ s.Sized f e t ∧ t.mark = 4 ∧ e.cnf.clauseCount = 7 ∧
      e.cnf.literalCount = 15) ∧
      ∃ x t, s.encode g = (.error x, t) ∧ s.Stopped g x t ∧ t.mark = 3 ∧ t.generation = 7 := by
  intro s x y f g
  refine ⟨⟨_, _, rfl, (encode_size s f).1 _ _ rfl, rfl, ?_, ?_⟩,
    _, _, rfl, (encode_size s g).2 _ _ rfl, rfl, rfl⟩
  · decide
  · decide

end Supply

end Clausal
