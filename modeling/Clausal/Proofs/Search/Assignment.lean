import Clausal.Search.Assignment

/-!
# Consistent assignments

An assignment keeps its knowledge twice, as values and as a trail. It is consistent when the two
agree: an atom has a value exactly when one of its literals is on the trail, which then is the only
one, and the value is the polarity of that literal. Each operation keeps assignments consistent.
-/

namespace Clausal.Search.Assignment

/-- The trail and the values of an assignment tell the same. -/
structure Consistent (a : Assignment) : Prop where
  size_pos : 0 < a.values.size
  size_saved : a.saved.size = a.values.size
  value_zero : a.value 0 = none
  mem_trail : ∀ l, l ∈ a.trail ↔ a.value l.atom = some l.polarity
  nodup : (a.trail.toList.map Literal.atom).Nodup

/-- An entry that an assignment may still fill. -/
def IsOpen (a : Assignment) (index : Nat) : Prop := a.values[index]? = some none

variable {a : Assignment} {l m : Literal}

/-! ## Values of literals -/

theorem valueOf_eq_true_iff : a.valueOf l = some true ↔ a.value l.atom = some l.polarity := by
  cases h : a.value l.atom <;> simp [valueOf, h]

theorem valueOf_eq_false_iff : a.valueOf l = some false ↔ a.value l.atom = some (!l.polarity) := by
  cases h : a.value l.atom with
  | none => simp [valueOf, h]
  | some b => cases b <;> cases hp : l.polarity <;> simp [valueOf, h, hp]

theorem valueOf_eq_none_iff : a.valueOf l = none ↔ a.value l.atom = none := by
  simp [valueOf]

theorem isOpen_iff {index : Nat} :
    a.IsOpen index ↔ index < a.values.size ∧ a.value index = none := by
  unfold IsOpen value
  cases h : a.values[index]? with
  | none =>
    have hsize := Array.getElem?_eq_none_iff.mp h
    simp
    omega
  | some o =>
    obtain ⟨hsize, -⟩ := Array.getElem?_eq_some_iff.mp h
    simp [hsize]

theorem atomCount_eq (h : a.Consistent) : a.values.size = a.atomCount + 1 := by
  have := h.size_pos
  simp only [atomCount]
  omega

theorem Consistent.valueOf_true (h : a.Consistent) : a.valueOf l = some true ↔ l ∈ a.trail := by
  rw [valueOf_eq_true_iff, h.mem_trail]

theorem Consistent.valueOf_false (h : a.Consistent) : a.valueOf l = some false ↔ -l ∈ a.trail := by
  rw [valueOf_eq_false_iff, h.mem_trail, Literal.atom_neg, Literal.polarity_neg]

/-- No literal is on the trail together with its negation. -/
theorem Consistent.not_mem_neg (h : a.Consistent) (hl : l ∈ a.trail) : -l ∉ a.trail := by
  intro hn
  have ht := h.valueOf_true.mpr hl
  rw [h.valueOf_false.mpr hn] at ht
  cases ht

/-- A literal with a value has its atom in range. -/
theorem Consistent.range_of_mem (h : a.Consistent) (hl : l ∈ a.trail) :
    0 < l.atom ∧ l.atom ≤ a.atomCount := by
  have hv := (h.mem_trail l).mp hl
  constructor
  · rcases Nat.eq_zero_or_pos l.atom with h0 | hpos
    · rw [h0, h.value_zero] at hv
      cases hv
    · exact hpos
  · unfold value at hv
    cases hi : a.values[l.atom]? with
    | none => simp [hi] at hv
    | some o =>
      have := (Array.getElem?_eq_some_iff.mp hi).1
      have := atomCount_eq h
      omega

/-- The trail has one place for an atom. -/
theorem Consistent.eq_of_atom_eq (h : a.Consistent) {i j : Nat} (hl : a.trail[i]? = some l)
    (hm : a.trail[j]? = some m) (hlm : l.atom = m.atom) : i = j := by
  have hatom : ∀ {k : Nat} {n : Literal}, a.trail[k]? = some n →
      (a.trail.toList.map Literal.atom)[k]? = some n.atom := by
    intro k n hn
    rw [List.getElem?_map, Array.getElem?_toList, hn]
    rfl
  have hi := hatom hl
  rw [← List.getElem?_inj (List.getElem?_eq_some_iff.mp hi).1 h.nodup, hi, hatom hm, hlm]

/-- Over the same atoms the trail determines the values. -/
theorem Consistent.values_eq {b : Assignment} (ha : a.Consistent) (hb : b.Consistent)
    (hcount : a.atomCount = b.atomCount) (htrail : a.trail = b.trail) : a.values = b.values := by
  have hsize : a.values.size = b.values.size := by
    rw [atomCount_eq ha, atomCount_eq hb, hcount]
  have hvalue : ∀ i, a.value i = b.value i := by
    refine fun i => Option.ext fun polarity => ?_
    have hmem := hb.mem_trail ⟨i, polarity⟩
    rw [← htrail] at hmem
    exact (ha.mem_trail ⟨i, polarity⟩).symm.trans hmem
  refine Array.ext hsize fun i hi hi' => ?_
  simpa [value, hi, hi'] using hvalue i

/-! ## A new assignment -/

theorem value_new (atomCount index : Nat) : (new atomCount).value index = none := by
  simp only [value, new, Array.getElem?_replicate]
  split <;> rfl

theorem consistent_new (atomCount : Nat) : (new atomCount).Consistent where
  size_pos := by simp [new]
  size_saved := by simp [new]
  value_zero := value_new _ _
  mem_trail l := by
    rw [value_new]
    simp [new]
  nodup := by simp [new]

theorem atomCount_new (atomCount : Nat) : (new atomCount).atomCount = atomCount := by
  simp [new, Assignment.atomCount]

/-! ## More room -/

theorem value_grow (a : Assignment) (index i : Nat) : (a.grow index).value i = a.value i := by
  simp only [value, grow, Array.getElem?_append, Array.getElem?_replicate]
  split
  · rfl
  · rename_i h
    rw [Array.getElem?_eq_none_iff.mpr (Nat.not_lt.mp h)]
    split <;> rfl

theorem trail_grow (a : Assignment) (index : Nat) : (a.grow index).trail = a.trail := rfl

theorem atomCount_grow (h : a.Consistent) (index : Nat) :
    (a.grow index).atomCount = max a.atomCount index := by
  have := atomCount_eq h
  simp only [atomCount, grow, Array.size_append, Array.size_replicate]
  omega

theorem Consistent.grow (h : a.Consistent) (index : Nat) : (a.grow index).Consistent where
  size_pos := by
    have := h.size_pos
    simp only [Assignment.grow, Array.size_append]
    omega
  size_saved := by simp [Assignment.grow, h.size_saved]
  value_zero := by rw [value_grow, h.value_zero]
  mem_trail l := by rw [value_grow, trail_grow, h.mem_trail]
  nodup := h.nodup

/-! ## One more literal -/

theorem assign_of_isOpen (h : a.IsOpen l.atom) :
    a.assign l = ⟨a.values.setIfInBounds l.atom (some l.polarity),
      a.saved.setIfInBounds l.atom (some l.polarity), a.trail.push l⟩ := by
  unfold assign
  rw [show a.values[l.atom]? = some none from h]

theorem trail_assign (h : a.IsOpen l.atom) : (a.assign l).trail = a.trail.push l := by
  rw [assign_of_isOpen h]

/-- The trail that was there stays in its place. -/
theorem getElem?_trail_assign (h : a.IsOpen l.atom) {i : Nat} (hi : i < a.trail.size) :
    (a.assign l).trail[i]? = a.trail[i]? := by
  rw [trail_assign h, Array.getElem?_push, if_neg (Nat.ne_of_lt hi)]

/-- The literal assigned is the only one that is new on the trail. -/
theorem eq_of_getElem?_trail_assign (h : a.IsOpen l.atom) {i : Nat} (hi : a.trail.size ≤ i)
    (hm : (a.assign l).trail[i]? = some m) : i = a.trail.size ∧ m = l := by
  rw [trail_assign h, Array.getElem?_push] at hm
  split at hm
  · rename_i hsize
    exact ⟨hsize, (Option.some.inj hm).symm⟩
  · have hlt := (Array.getElem?_eq_some_iff.mp hm).1
    omega

theorem value_assign (h : a.IsOpen l.atom) (i : Nat) :
    (a.assign l).value i = if i = l.atom then some l.polarity else a.value i := by
  have hsize := (isOpen_iff.mp h).1
  rw [assign_of_isOpen h]
  simp only [value, Array.getElem?_setIfInBounds]
  by_cases hi : l.atom = i
  · subst hi
    simp [hsize]
  · simp [hi, Ne.symm hi]

theorem Consistent.assign (h : a.Consistent) (ho : a.IsOpen l.atom) (hl : l.atom ≠ 0) :
    (a.assign l).Consistent where
  size_pos := by rw [size_values_assign]; exact h.size_pos
  size_saved := by rw [assign_of_isOpen ho]; simp [h.size_saved]
  value_zero := by rw [value_assign ho, if_neg (Ne.symm hl), h.value_zero]
  mem_trail m := by
    rw [trail_assign ho, value_assign ho, Array.mem_push, h.mem_trail]
    by_cases hm : m.atom = l.atom
    · have hnone : a.value m.atom = none := hm ▸ (isOpen_iff.mp ho).2
      rw [if_pos hm, hnone]
      constructor
      · intro hm'
        rcases hm' with h' | rfl
        · cases h'
        · rfl
      · intro h'
        exact .inr (Literal.ext hm (Option.some.inj h').symm)
    -- a literal of another atom is neither the new one nor any less on the trail
    · rw [if_neg hm]
      constructor
      · intro hm'
        rcases hm' with h' | rfl
        · exact h'
        · exact absurd rfl hm
      · exact .inl
  nodup := by
    have hnew : l.atom ∉ a.trail.toList.map Literal.atom := by
      intro hmem
      obtain ⟨m, hm, hml⟩ := List.mem_map.mp hmem
      have hv := (h.mem_trail m).mp (Array.mem_toList_iff.mp hm)
      rw [hml, (isOpen_iff.mp ho).2] at hv
      cases hv
    rw [trail_assign ho, Array.toList_push, List.map_append]
    apply (List.perm_append_singleton _ _).nodup_iff.mpr
    exact List.nodup_cons.mpr ⟨hnew, h.nodup⟩

/-! ## Going back -/

theorem value_foldl_clear (ls : List Literal) (vs : Array (Option Bool)) (i : Nat) :
    ((ls.foldl (fun vs l => vs.setIfInBounds l.atom none) vs)[i]?).join
      = if i ∈ ls.map Literal.atom then none else (vs[i]?).join := by
  induction ls generalizing vs with
  | nil => simp
  | cons l ls ih =>
    rw [List.foldl_cons, ih, Array.getElem?_setIfInBounds]
    by_cases hi : i ∈ ls.map Literal.atom
    · simp [hi]
    · by_cases hl : l.atom = i
      · subst hl
        simp only [hi, ↓reduceIte, List.map_cons, List.mem_cons, true_or]
        split <;> rfl
      · simp [hi, hl, Ne.symm hl]

theorem value_unwind (a : Assignment) (length i : Nat) :
    (a.unwind length).value i
      = if i ∈ (a.trail.toList.drop length).map Literal.atom then none else a.value i := by
  have htail : (a.trail.extract length).toList = a.trail.toList.drop length := by
    rw [Array.toList_extract, List.extract_eq_take_drop]
    exact List.take_of_length_le (by simp)
  simp only [value, unwind, ← Array.foldl_toList, htail]
  exact value_foldl_clear _ _ _

theorem trail_unwind (a : Assignment) (length : Nat) :
    (a.unwind length).trail.toList = a.trail.toList.take length := by
  simp [unwind]

theorem getElem?_trail_unwind (a : Assignment) (length i : Nat) :
    (a.unwind length).trail[i]? = if i < length then a.trail[i]? else none := by
  rw [← Array.getElem?_toList, trail_unwind, List.getElem?_take, Array.getElem?_toList]

/-- Cutting the trail opens the atoms of the literals cut off, and keeps the others. -/
theorem Consistent.unwind (h : a.Consistent) (length : Nat) : (a.unwind length).Consistent where
  size_pos := by rw [size_values_unwind]; exact h.size_pos
  size_saved := by rw [size_values_unwind]; exact h.size_saved
  value_zero := by rw [value_unwind, h.value_zero]; split <;> rfl
  mem_trail l := by
    have hsplit := h.nodup
    rw [← List.take_append_drop length a.trail.toList, List.map_append,
      List.nodup_append] at hsplit
    rw [← Array.mem_toList_iff, trail_unwind, value_unwind]
    constructor
    -- the atom of a literal that stays is not cut off, since it is on the trail once
    · intro hl
      have hl' : l ∈ a.trail := Array.mem_toList_iff.mp (List.mem_of_mem_take hl)
      rw [if_neg, (h.mem_trail l).mp hl']
      intro hd
      exact hsplit.2.2 _ (List.mem_map_of_mem hl) _ hd rfl
    · split
      · intro hv
        cases hv
      · rename_i hd
        intro hv
        have hl := Array.mem_toList_iff.mpr ((h.mem_trail l).mpr hv)
        rw [← List.take_append_drop length a.trail.toList] at hl
        rcases List.mem_append.mp hl with hl | hl
        · exact hl
        · exact absurd (List.mem_map_of_mem hl) hd
  nodup := by
    rw [trail_unwind]
    exact (List.take_sublist _ _).map _ |>.nodup h.nodup

/-- The atom of a literal that is cut off is open afterwards. -/
theorem Consistent.isOpen_unwind (h : a.Consistent) {length i : Nat} (hi : length ≤ i)
    (hl : a.trail[i]? = some l) : (a.unwind length).IsOpen l.atom := by
  rw [isOpen_iff]
  constructor
  · have := (h.range_of_mem (Array.mem_of_getElem? hl)).2
    rw [size_values_unwind, atomCount_eq h]
    omega
  · rw [value_unwind, if_pos]
    refine List.mem_map_of_mem (List.mem_of_getElem? (i := i - length) ?_)
    rw [List.getElem?_drop, Nat.add_sub_cancel' hi, Array.getElem?_toList, hl]

/-! ## Complete assignments -/

/-- An assignment without open atoms values every atom in range. -/
theorem exists_value_of_openAtoms_eq_nil (h : a.openAtoms = []) {i : Nat} (hpos : 0 < i)
    (hi : i ≤ a.atomCount) : ∃ y, a.value i = some y := by
  unfold openAtoms at h
  rw [List.filter_eq_nil_iff] at h
  have := h i (by simp [List.mem_range'_1]; omega)
  cases hv : a.value i with
  | none => simp [hv] at this
  | some y => exact ⟨y, rfl⟩

/-- The trail holds no more literals than there are atoms. -/
theorem Consistent.size_trail_le (h : a.Consistent) : a.trail.size ≤ a.atomCount := by
  have hsub : a.trail.toList.map Literal.atom ⊆ List.range' 1 a.atomCount := by
    intro i hi
    obtain ⟨l, hl, rfl⟩ := List.mem_map.mp hi
    have := h.range_of_mem (Array.mem_toList_iff.mp hl)
    simp only [List.mem_range'_1]
    omega
  have hle := List.Nodup.length_le_of_subset h.nodup hsub
  simpa using hle

end Clausal.Search.Assignment
