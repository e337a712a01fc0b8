import Clausal.Clause

/-!
# Models

A model says which atoms are true; every other atom is false. It also carries the atom count of the
instance it is a model of, which bounds the literals it is listed as. The true atoms may exceed
that count.
-/

namespace Clausal

structure Model where
  /-- The true atoms, increasing and without repeats. -/
  trueAtoms : List Atom
  atomCount : Nat
deriving DecidableEq

namespace Model

/-- The model that makes true exactly the atoms that some literal asserts. -/
def ofLiterals (atomCount : Nat) (ls : List Literal) : Model :=
  ⟨Ordered.ofList Atom.order (ls.filterMap Literal.asserted?), atomCount⟩

/-- The value of the atom of an index. -/
def value (m : Model) (index : Nat) : Bool := m.trueAtoms.any fun a => a.index == index

def valueOf (m : Model) (a : Atom) : Bool := m.value a.index

/-- Makes false every atom that is not listed. The atom count stays. -/
def restrict (m : Model) (atoms : List Atom) : Model :=
  { m with trueAtoms := Ordered.ofList Atom.order (atoms.filter m.valueOf) }

/-- One literal for each of the atoms `1, …, atomCount`, in order. -/
def literals (m : Model) : List Literal :=
  (List.range' 1 m.atomCount).map fun index => ⟨index, m.value index⟩

/-- The true atoms separated by single spaces. -/
def chars (m : Model) : List Char := [' '].intercalate (m.trueAtoms.map Atom.chars)

def text (m : Model) : String := String.ofList m.chars

/-! ## Values -/

theorem value_eq_true_iff {m : Model} {index : Nat} :
    m.value index = true ↔ ∃ a ∈ m.trueAtoms, a.index = index := by
  simp [value]

theorem valueOf_eq_true_iff {m : Model} {a : Atom} :
    m.valueOf a = true ↔ a ∈ m.trueAtoms := by
  rw [valueOf, value_eq_true_iff]
  constructor
  · rintro ⟨b, hb, h⟩
    exact Atom.eq_of_index_eq h ▸ hb
  · exact fun h => ⟨a, h, rfl⟩

theorem mem_trueAtoms_restrict {m : Model} {atoms : List Atom} {a : Atom} :
    a ∈ (m.restrict atoms).trueAtoms ↔ a ∈ atoms ∧ a ∈ m.trueAtoms := by
  simp [restrict, valueOf_eq_true_iff]

end Model

end Clausal
