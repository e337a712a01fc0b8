import Clausal.Encoding
import Clausal.Proofs.Cnf

/-!
# The outcome of an encoding

An encoding carries a supply and an instance through the formula. What comes of it depends on the
formula and the mark of the supply alone: each connective takes the atom after those of the
connectives completed before it, and the encoding fails at the first place whose check fails.
-/

namespace Clausal

/-- What is checked at a place of a formula. -/
inductive Check where
  /-- An atom is known. -/
  | known (a : Atom)
  /-- A connective has an operand. This is the check of one that has not. -/
  | operand
  /-- The supply has an atom left. -/
  | fresh
deriving DecidableEq

/-- A place where an encoding may fail. -/
structure Place where
  /-- The number of connectives completed before. -/
  before : Nat
  check : Check
deriving DecidableEq

/-- Whether the check of a place fails when the encoding begins at the mark `h`. By then the mark
has moved on by the connectives completed. -/
def Place.fails (h : Nat) (p : Place) : Bool :=
  match p.check with
  | .known a => decide (h + p.before < a.index)
  | .operand => true
  | .fresh => decide (atomMax ≤ h + p.before)

/-- The error of a place whose check fails. -/
def Place.error (p : Place) : Error :=
  match p.check with
  | .known a => .supply (.unknownAtom a.index)
  | .operand => .formula .emptyConnective
  | .fresh => .supply .atomsExhausted

namespace Formula

mutual

/-- The places of a formula from left to right, with `done` connectives completed before. -/
def places : Nat → Formula → List Place
  | done, var a => [⟨done, .known a⟩]
  | done, neg f => places done f
  | done, node _ fs =>
    if fs.isEmpty then [⟨done, .operand⟩]
    else placesOf done fs ++ [⟨done + connectiveCountOf fs, .fresh⟩]

def placesOf : Nat → List Formula → List Place
  | _, [] => []
  | done, f :: fs => places done f ++ placesOf (done + f.connectiveCount) fs

end

/-- The literal of a formula whose encoding begins at the mark `n`. -/
def label (n : Nat) : Formula → Literal
  | var a => a.literal
  | neg f => -f.label n
  | node _ fs => ⟨n + connectiveCountOf fs + 1, true⟩

def labelsOf : Nat → List Formula → List Literal
  | _, [] => []
  | n, f :: fs => f.label n :: labelsOf (n + f.connectiveCount) fs

mutual

/-- The clauses that define the connectives of a formula whose encoding begins at the mark `n`. -/
def definitions : Nat → Formula → List Clause
  | _, var _ => []
  | n, neg f => definitions n f
  | n, node op fs =>
    definitionsOf n fs ++ op.definition ⟨n + connectiveCountOf fs + 1, true⟩ (labelsOf n fs)

def definitionsOf : Nat → List Formula → List Clause
  | _, [] => []
  | n, f :: fs => definitions n f ++ definitionsOf (n + f.connectiveCount) fs

end

end Formula

/-! ## Defining one connective -/

theorem Connective.mem_definition {op : Connective} {z : Literal} {ls : List Literal}
    {c : Clause} (hc : c ∈ op.definition z ls) :
    ∀ m ∈ c, m = z ∨ m = -z ∨ m ∈ ls ∨ -m ∈ ls := by
  intro m hm
  cases op <;> simp only [definition, List.mem_append, List.mem_map, List.mem_singleton] at hc
  · rcases hc with ⟨l, hl, rfl⟩ | rfl
    · simp only [List.mem_cons, List.not_mem_nil, or_false] at hm
      rcases hm with rfl | rfl
      · simp
      · simp [hl]
    · simp only [List.mem_cons, List.mem_map] at hm
      rcases hm with rfl | ⟨l, hl, rfl⟩
      · simp
      · simp [hl]
  · rcases hc with ⟨l, hl, rfl⟩ | rfl
    · simp only [List.mem_cons, List.not_mem_nil, or_false] at hm
      rcases hm with rfl | rfl
      · simp
      · simp [hl]
    · rcases List.mem_cons.mp hm with rfl | hm
      · simp
      · simp [hm]

/-- The atoms of a definition are that of the connective and those of its operands. -/
theorem Connective.atom_of_mem_definition {op : Connective} {z : Literal} {ls : List Literal}
    {c : Clause} {P : Nat → Prop} (hz : P z.atom) (hls : ∀ l ∈ ls, P l.atom)
    (hc : c ∈ op.definition z ls) : ∀ m ∈ c, P m.atom := by
  intro m hm
  rcases mem_definition hc m hm with rfl | rfl | hl | hl
  · exact hz
  · exact hz
  · exact hls m hl
  · exact hls (-m) hl

/-- What comes of encoding some part from the encoder `e` on. With no failing place there is a
value, the mark has moved to `h + done` and clauses have been added; otherwise the first failing
place is where the encoding stops. -/
inductive Outcome {α : Type} (h : Nat) (e : Encoder) (places : List Place) (done : Nat)
    (value : α) (clauses : List Clause) : Except Error α × Encoder → Prop
  | ok {e' : Encoder} (hfind : places.find? (Place.fails h) = none)
      (hmark : e'.supply.mark = h + done) (hgen : e'.supply.generation = e.supply.generation)
      (hcnf : e'.cnf = e.cnf.insertAll clauses) :
      Outcome h e places done value clauses (.ok value, e')
  | error {p : Place} {e' : Encoder} (hfind : places.find? (Place.fails h) = some p)
      (hmark : e'.supply.mark = h + p.before)
      (hgen : e'.supply.generation = e.supply.generation) :
      Outcome h e places done value clauses (.error p.error, e')

namespace Outcome

variable {α : Type} {h done : Nat} {e e' : Encoder} {ps qs : List Place} {value : α}
  {cs ds : List Clause}

/-- Where one part has a value, the next is encoded from there on. -/
theorem append {r : Except Error α × Encoder} (hfind : ps.find? (Place.fails h) = none)
    (hgen : e'.supply.generation = e.supply.generation) (hcnf : e'.cnf = e.cnf.insertAll cs)
    (hqs : Outcome h e' qs done value ds r) : Outcome h e (ps ++ qs) done value (cs ++ ds) r := by
  cases hqs with
  | ok hfind' hmark' hgen' hcnf' =>
    refine .ok ?_ hmark' (hgen'.trans hgen) ?_
    · rw [List.find?_append, hfind, hfind']
      rfl
    · rw [hcnf', hcnf, Cnf.insertAll_append]
  | error hfind' hmark' hgen' =>
    refine .error ?_ hmark' (hgen'.trans hgen)
    rw [List.find?_append, hfind, hfind']
    rfl

/-- Where one part fails, nothing comes of the next. -/
theorem append_error {p : Place} (hfind : ps.find? (Place.fails h) = some p)
    (hmark : e'.supply.mark = h + p.before) (hgen : e'.supply.generation = e.supply.generation) :
    Outcome h e (ps ++ qs) done value cs (.error p.error, e') := by
  refine .error ?_ hmark hgen
  rw [List.find?_append, hfind]
  rfl

end Outcome

namespace Encoder

variable {h done : Nat} {e : Encoder}

theorem add_of_inRange {cs : List Clause} (hcs : ∀ c ∈ cs, Cnf.InRange c) (e : Encoder) :
    e.add cs = (.ok (), { e with cnf := e.cnf.insertAll cs }) := by
  induction cs generalizing e with
  | nil => rfl
  | cons c cs ih =>
    rw [add, Cnf.addClause_of_inRange _ (hcs c List.mem_cons_self)]
    exact ih (fun d hd => hcs d (List.mem_cons_of_mem _ hd)) _

theorem define_outcome (op : Connective) {ls : List Literal} (hm : e.supply.mark = h + done)
    (hls : ∀ l ∈ ls, 0 < l.atom ∧ l.atom ≤ h + done) :
    Outcome h e [⟨done, .fresh⟩] (done + 1) ⟨h + done + 1, true⟩
      (op.definition ⟨h + done + 1, true⟩ ls) (e.define op ls) := by
  unfold define Supply.fresh
  by_cases hmax : e.supply.mark < atomMax
  -- all atoms of the definition are in range, so that none of its clauses is refused
  · rw [dif_pos hmax]
    have hz : (⟨e.supply.mark + 1, by omega⟩ : Atom).literal = ⟨h + done + 1, true⟩ := by
      show (⟨e.supply.mark + 1, true⟩ : Literal) = _
      rw [hm]
    have hrange : ∀ c ∈ op.definition ⟨h + done + 1, true⟩ ls, Cnf.InRange c := by
      intro c hc
      refine Connective.atom_of_mem_definition (P := fun i => 0 < i ∧ i ≤ atomMax) ?_ ?_ hc
      · exact ⟨Nat.succ_pos _, by simp only; omega⟩
      · intro l hl
        have := hls l hl
        omega
    simp only [hz]
    rw [add_of_inRange hrange]
    refine .ok ?_ ?_ rfl rfl
    · have hroom : ¬ atomMax ≤ h + done := by omega
      simp [Place.fails, hroom]
    · show e.supply.mark + 1 = h + (done + 1)
      omega
  · rw [dif_neg hmax]
    refine .error (p := ⟨done, .fresh⟩) ?_ hm rfl
    have hfull : atomMax ≤ h + done := by omega
    simp [Place.fails, hfull]

end Encoder

/-! ## The atoms of labels -/

namespace Formula

mutual

theorem range_label (h : Nat) : ∀ (done : Nat) (f : Formula),
    (f.places done).find? (Place.fails h) = none →
      0 < (f.label (h + done)).atom ∧
        (f.label (h + done)).atom ≤ h + (done + f.connectiveCount)
  | done, var a, hf => by
    have hknown : ¬ h + done < a.index := by
      simpa [places, Place.fails] using hf
    have := a.index_pos
    simp only [label, Atom.literal, connectiveCount]
    omega
  | done, neg f, hf => range_label h done f hf
  | done, node op fs, _ => by
    simp only [label, connectiveCount]
    omega

theorem range_labelsOf (h : Nat) : ∀ (done : Nat) (fs : List Formula),
    (placesOf done fs).find? (Place.fails h) = none →
      ∀ l ∈ labelsOf (h + done) fs, 0 < l.atom ∧ l.atom ≤ h + (done + connectiveCountOf fs)
  | _, [], _ => by simp [labelsOf]
  | done, f :: fs, hf => by
    rw [placesOf, List.find?_append, Option.or_eq_none_iff] at hf
    intro l hl
    rw [labelsOf] at hl
    rw [connectiveCountOf]
    rcases List.mem_cons.mp hl with rfl | hl
    · have := range_label h done f hf.1
      omega
    · rw [Nat.add_assoc] at hl
      have := range_labelsOf h (done + f.connectiveCount) fs hf.2 l hl
      omega

end

end Formula

/-! ## The whole formula -/

namespace Encoder

mutual

-- The number of connectives completed before a part is carried along, since the mark at that part
-- is the mark on entry and as many more.
theorem literal_outcome (h : Nat) : ∀ (done : Nat) (f : Formula) (e : Encoder),
    e.supply.mark = h + done →
      Outcome h e (f.places done) (done + f.connectiveCount) (f.label (h + done))
        (f.definitions (h + done)) (literal f e)
  | done, .var a, e, hm => by
    rw [literal, Formula.places, Supply.knows, hm]
    by_cases ha : a.index ≤ h + done
    · simp only [ha, decide_true, ↓reduceIte]
      exact .ok (by simp [Place.fails, ha]) hm rfl rfl
    · simp only [ha, decide_false, Bool.false_eq_true, ↓reduceIte]
      refine .error (p := ⟨done, .known a⟩) ?_ hm rfl
      simp [Place.fails]
      omega
  | done, .neg f, e, hm => by
    have hf := literal_outcome h done f e hm
    rw [literal]
    generalize literal f e = r at hf ⊢
    cases hf with
    | ok hfind hmark hgen hcnf => exact .ok hfind hmark hgen hcnf
    | error hfind hmark hgen => exact .error hfind hmark hgen
  | done, .node op fs, e, hm => by
    have hfs := literals_outcome h done fs e hm
    rw [literal, Formula.places]
    by_cases hempty : fs.isEmpty = true
    · rw [if_pos hempty, if_pos hempty]
      exact .error (p := ⟨done, .operand⟩) (by simp [Place.fails]) hm rfl
    · rw [if_neg hempty, if_neg hempty]
      generalize literals fs e = r at hfs ⊢
      cases hfs with
      | @ok e' hfind hmark hgen hcnf =>
        have hdef := define_outcome op hmark (Formula.range_labelsOf h done fs hfind)
        have hboth := hdef.append hfind hgen hcnf
        rw [Formula.label, Formula.definitions, Formula.connectiveCount, Nat.add_assoc h,
          Nat.add_comm 1, ← Nat.add_assoc done]
        exact hboth
      | error hfind hmark hgen => exact .append_error hfind hmark hgen

theorem literals_outcome (h : Nat) : ∀ (done : Nat) (fs : List Formula) (e : Encoder),
    e.supply.mark = h + done →
      Outcome h e (Formula.placesOf done fs) (done + Formula.connectiveCountOf fs)
        (Formula.labelsOf (h + done) fs) (Formula.definitionsOf (h + done) fs) (literals fs e)
  | done, [], e, hm => .ok rfl hm rfl rfl
  | done, f :: fs, e, hm => by
    have hf := literal_outcome h done f e hm
    rw [literals, Formula.placesOf, Formula.labelsOf, Formula.definitionsOf, Nat.add_assoc h]
    generalize literal f e = r at hf ⊢
    cases hf with
    | @ok e' hfind hmark hgen hcnf =>
      have hfs := literals_outcome h (done + f.connectiveCount) fs e' hmark
      have hboth := hfs.append hfind hgen hcnf
      rw [Formula.connectiveCountOf, ← Nat.add_assoc done]
      simp only
      generalize literals fs e' = r at hboth ⊢
      -- only the value is another: the label of the first formula comes in front
      cases hboth with
      | ok hfind' hmark' hgen' hcnf' => exact .ok hfind' hmark' hgen' hcnf'
      | error hfind' hmark' hgen' => exact .error hfind' hmark' hgen'
    | error hfind hmark hgen => exact .append_error hfind hmark hgen

end

end Encoder

namespace Supply

variable {s t : Supply} {f : Formula}

/-- The instance of a formula whose encoding begins at the mark `n`, but for its atom count. -/
def clausesOf (n : Nat) (f : Formula) : Cnf :=
  Cnf.empty.insertAll (f.definitions n ++ [[f.label n]])

theorem encode_of_find?_eq_none (hf : (f.places 0).find? (Place.fails s.mark) = none) :
    ∃ t, s.encode f = (.ok ⟨(clausesOf s.mark f).declareAtomCount t.mark, f.label s.mark⟩, t) ∧
      t.mark = s.mark + f.connectiveCount ∧ t.generation = s.generation := by
  have ho := Encoder.literal_outcome s.mark 0 f ⟨s, Cnf.empty⟩ rfl
  unfold encode
  generalize Encoder.literal f ⟨s, Cnf.empty⟩ = r at ho
  cases ho with
  | @ok e hfind hmark hgen hcnf =>
    rw [Nat.zero_add] at hmark
    have hroot := Formula.range_label s.mark 0 f hfind
    have hle := e.supply.mark_le
    have hrange : ∀ c ∈ [[f.label s.mark]], Cnf.InRange c := by
      intro c hc l hl
      rw [List.mem_singleton] at hc
      subst hc
      rw [List.mem_singleton] at hl
      subst hl
      simp only [Nat.add_zero] at hroot
      omega
    refine ⟨e.supply, ?_, hmark, hgen⟩
    simp only [Nat.add_zero]
    rw [Encoder.add_of_inRange hrange, hcnf, clausesOf, Cnf.insertAll_append]
    rfl
  | error hfind hmark hgen =>
    rw [hf] at hfind
    cases hfind

theorem encode_of_find?_eq_some {p : Place}
    (hf : (f.places 0).find? (Place.fails s.mark) = some p) :
    ∃ t, s.encode f = (.error p.error, t) ∧ t.mark = s.mark + p.before ∧
      t.generation = s.generation := by
  have ho := Encoder.literal_outcome s.mark 0 f ⟨s, Cnf.empty⟩ rfl
  unfold encode
  generalize Encoder.literal f ⟨s, Cnf.empty⟩ = r at ho
  cases ho with
  | ok hfind hmark hgen hcnf =>
    rw [hf] at hfind
    cases hfind
  | @error q e hfind hmark hgen =>
    rw [hf] at hfind
    cases hfind
    exact ⟨e.supply, rfl, hmark, hgen⟩

/-- What is known of an encoding that succeeded. -/
structure Encodes (s : Supply) (f : Formula) (e : Encoding) (t : Supply) : Prop where
  find? : (f.places 0).find? (Place.fails s.mark) = none
  mark : t.mark = s.mark + f.connectiveCount
  root : e.root = f.label s.mark
  cnf : e.cnf = (clausesOf s.mark f).declareAtomCount t.mark

theorem encodes_of_eq_ok {e : Encoding} (h : s.encode f = (.ok e, t)) : s.Encodes f e t := by
  cases hf : (f.places 0).find? (Place.fails s.mark) with
  | none =>
    obtain ⟨u, hu, hmark, -⟩ := encode_of_find?_eq_none hf
    rw [h] at hu
    cases hu
    exact ⟨hf, hmark, rfl, rfl⟩
  | some p =>
    obtain ⟨u, hu, -⟩ := encode_of_find?_eq_some hf
    rw [h] at hu
    cases hu

end Supply

end Clausal
