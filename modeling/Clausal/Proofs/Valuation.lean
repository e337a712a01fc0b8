import Clausal.Formula

/-!
# Valuations of finitely many atoms

A valuation of the atoms `1, …, n` is extended by false wherever all atoms are to have a value. What
is satisfied depends on the atoms that occur only, and so does the value of a formula.
-/

namespace Clausal

/-- A valuation of the atoms `1, …, n`. -/
def Valuation (n : Nat) : Type := Fin n → Bool

namespace Valuation

variable {n m i : Nat}

/-- The value of the atom of an index, and false if the atom is not among `1, …, n`. -/
def value (v : Valuation n) (index : Nat) : Bool :=
  if h : 0 < index ∧ index ≤ n then v ⟨index - 1, by omega⟩ else false

/-- The values of the atoms `1, …, n` among those of all atoms. -/
def ofValues (n : Nat) (u : Nat → Bool) : Valuation n := fun i => u (i.val + 1)

def restrict (w : Valuation m) (n : Nat) : Valuation n := ofValues n w.value

theorem value_ofValues (u : Nat → Bool) (hpos : 0 < i) (hi : i ≤ n) :
    (ofValues n u).value i = u i := by
  have hsucc : i - 1 + 1 = i := Nat.sub_add_cancel hpos
  rw [value, dif_pos ⟨hpos, hi⟩, ofValues]
  simp only [hsucc]

theorem value_succ (v : Valuation n) (i : Fin n) : v.value (i.val + 1) = v i := by
  rw [value, dif_pos ⟨Nat.succ_pos _, i.isLt⟩]
  rfl

theorem value_eq_of_forall_lt {v w : Valuation n} {i : Fin n} (h : ∀ j < i, v j = w j) {k : Nat}
    (hpos : 0 < k) (hk : k ≤ i.val) : v.value k = w.value k := by
  have hkn : k ≤ n := Nat.le_trans hk (Nat.le_of_lt i.isLt)
  rw [value, value, dif_pos ⟨hpos, hkn⟩, dif_pos ⟨hpos, hkn⟩]
  refine h _ ?_
  show k - 1 < i.val
  omega

theorem value_restrict (w : Valuation m) (hpos : 0 < i) (hi : i ≤ n) :
    (w.restrict n).value i = w.value i :=
  value_ofValues w.value hpos hi

theorem ext_value {v w : Valuation n} (h : ∀ i, 0 < i → i ≤ n → v.value i = w.value i) :
    v = w := by
  funext i
  have hi := h (i.val + 1) (Nat.succ_pos _) i.isLt
  rw [value, value, dif_pos ⟨Nat.succ_pos _, i.isLt⟩, dif_pos ⟨Nat.succ_pos _, i.isLt⟩] at hi
  exact hi

end Valuation

/-! ## Leaves -/

namespace Formula

mutual

/-- The value of a formula looks at the atoms of its leaves only. -/
theorem eval_congr {v w : Atom → Bool} : ∀ f : Formula,
    (∀ a ∈ f.leaves, v a = w a) → f.eval v = f.eval w
  | var a, h => h a List.mem_cons_self
  | neg f, h => by
    rw [eval, eval, eval_congr f h]
  | node op fs, h => by
    rw [eval, eval, evals_congr fs h]

theorem evals_congr {v w : Atom → Bool} : ∀ fs : List Formula,
    (∀ a ∈ leavesOf fs, v a = w a) → evals v fs = evals w fs
  | [], _ => rfl
  | f :: fs, h => by
    rw [evals, evals, eval_congr f fun a ha => h a (List.mem_append_left _ ha),
      evals_congr fs fun a ha => h a (List.mem_append_right _ ha)]

end

end Formula

end Clausal
