import Clausal.Literal

/-!
# Assignments

An assignment values some of the atoms `1, …, atomCount`. The trail lists the literals that were
assigned, in order, and going back means to cut the trail and to take the values of the literals cut
off. Each atom also keeps the value that it had last.

`openCount_add_trail_assign` and its like say that an assignment moves an atom from the open ones to
the trail, which bounds every run of assignments.
-/

namespace Clausal.Search

structure Assignment where
  /-- The value of each atom, by index. The entry at 0 belongs to no atom. -/
  values : Array (Option Bool)
  /-- The last value of each atom, by index. -/
  saved : Array (Option Bool)
  /-- The literals assigned, from the first to the last. -/
  trail : Array Literal

namespace Assignment

/-- No value for any of a number of atoms. -/
def new (atomCount : Nat) : Assignment :=
  ⟨Array.replicate (atomCount + 1) none, Array.replicate (atomCount + 1) none, #[]⟩

def atomCount (a : Assignment) : Nat := a.values.size - 1

/-- The value of the atom of an index. -/
def value (a : Assignment) (index : Nat) : Option Bool := a.values[index]?.join

/-- Whether a literal is true, where its atom has a value. -/
def valueOf (a : Assignment) (l : Literal) : Option Bool :=
  (a.value l.atom).map (· == l.polarity)

/-- Makes room for the atoms up to an index. -/
def grow (a : Assignment) (index : Nat) : Assignment :=
  let more := Array.replicate (index + 1 - a.values.size) none
  { a with values := a.values ++ more, saved := a.saved ++ more }

/-- Makes a literal true. A literal whose atom has a value already, or is out of range, is left
alone. -/
def assign (a : Assignment) (l : Literal) : Assignment :=
  match a.values[l.atom]? with
  | some none =>
    { values := a.values.setIfInBounds l.atom (some l.polarity)
      saved := a.saved.setIfInBounds l.atom (some l.polarity)
      trail := a.trail.push l }
  | _ => a

/-- Cuts the trail down to its first `length` literals. -/
def unwind (a : Assignment) (length : Nat) : Assignment :=
  { a with
    values := (a.trail.extract length).foldl (fun vs l => vs.setIfInBounds l.atom none) a.values
    trail := a.trail.take length }

/-- The indices of the atoms without a value, in increasing order. -/
def openAtoms (a : Assignment) : List Nat :=
  (List.range' 1 a.atomCount).filter fun index => (a.value index).isNone

/-- The first of `count` indices from `index` on whose atom has no value. -/
def firstOpenFrom? (a : Assignment) : (count index : Nat) → Option Nat
  | 0, _ => none
  | count + 1, index =>
    if (a.value index).isNone then some index else firstOpenFrom? a count (index + 1)

/-- The index of the first atom without a value. -/
def firstOpen? (a : Assignment) : Option Nat := a.firstOpenFrom? a.atomCount 1

/-- One literal for each atom in order; an atom without a value counts as false. -/
def literals (a : Assignment) : List Literal :=
  (List.range' 1 a.atomCount).map fun index => ⟨index, (a.value index).getD false⟩

theorem firstOpenFrom?_eq (a : Assignment) (count index : Nat) :
    a.firstOpenFrom? count index
      = ((List.range' index count).filter fun i => (a.value i).isNone).head? := by
  induction count generalizing index with
  | zero => rfl
  | succ count ih =>
    by_cases h : (a.value index).isNone = true <;>
      simp [firstOpenFrom?, List.range'_succ, h, ih]

theorem firstOpen?_eq_head? (a : Assignment) : a.firstOpen? = a.openAtoms.head? :=
  a.firstOpenFrom?_eq _ _

/-! ## Counting -/

/-- The number of entries without a value, that at 0 included. -/
def openCount (a : Assignment) : Nat := a.values.count none

theorem size_values_assign (a : Assignment) (l : Literal) :
    (a.assign l).values.size = a.values.size := by
  unfold assign
  split <;> simp

theorem openCount_add_trail_assign (a : Assignment) (l : Literal) :
    (a.assign l).openCount + (a.assign l).trail.size = a.openCount + a.trail.size := by
  unfold assign
  split
  · rename_i h
    obtain ⟨hlt, heq⟩ := Array.getElem?_eq_some_iff.mp h
    have hpos : 0 < a.values.count none :=
      Array.count_pos_iff.mpr (heq ▸ Array.getElem_mem hlt)
    simp only [openCount, Array.setIfInBounds, hlt, ↓reduceDIte, Array.size_push,
      Array.count_set, heq]
    simp
    omega
  · rfl

theorem size_trail_le_assign (a : Assignment) (l : Literal) :
    a.trail.size ≤ (a.assign l).trail.size := by
  unfold assign
  split
  · simp
  · exact Nat.le_refl _

theorem size_values_unwind (a : Assignment) (length : Nat) :
    (a.unwind length).values.size = a.values.size := by
  suffices h : ∀ (ls : List Literal) (vs : Array (Option Bool)),
      (ls.foldl (fun vs l => vs.setIfInBounds l.atom none) vs).size = vs.size by
    simp only [unwind, ← Array.foldl_toList]
    exact h _ _
  intro ls
  induction ls with
  | nil => intro vs; rfl
  | cons l ls ih => intro vs; simp [ih]

theorem atomCount_assign (a : Assignment) (l : Literal) :
    (a.assign l).atomCount = a.atomCount := by
  simp [atomCount, size_values_assign]

theorem atomCount_unwind (a : Assignment) (length : Nat) :
    (a.unwind length).atomCount = a.atomCount := by
  simp [atomCount, size_values_unwind]

end Assignment

end Clausal.Search
