/-!
# Ordered lists

A finite set is kept as the list of its members, increasing and without repeats, so that two sets
are the same set exactly when their lists are equal. The order is a comparison `cmp`, given by the
type that uses it.

`mem_insert` and `mem_ofList` say what is in a set; `Increasing.insert` and `increasing_ofList` say
that the lists built here are increasing.
-/

namespace Clausal.Ordered

variable {α : Type} (cmp : α → α → Ordering)

/-- Puts a member at its place. One that is already there is left alone. -/
def insert (x : α) : List α → List α
  | [] => [x]
  | y :: ys =>
    match cmp x y with
    | .lt => x :: y :: ys
    | .eq => y :: ys
    | .gt => y :: insert x ys

/-- The members of a list, increasing and without repeats. -/
def ofList (xs : List α) : List α :=
  xs.foldr (insert cmp) []

/-- Each member comes strictly before every later one. -/
def Increasing (xs : List α) : Prop :=
  xs.Pairwise fun x y => cmp x y = .lt

@[simp] theorem ofList_nil : ofList cmp [] = [] := rfl

@[simp] theorem ofList_cons (x : α) (xs : List α) :
    ofList cmp (x :: xs) = insert cmp x (ofList cmp xs) := rfl

theorem length_insert_le (x : α) (ys : List α) : (insert cmp x ys).length ≤ ys.length + 1 := by
  induction ys with
  | nil => exact Nat.le_refl 1
  | cons y ys ih =>
    unfold insert
    split
    · exact Nat.le_refl _
    · exact Nat.le_succ _
    · exact Nat.succ_le_succ ih

/-! ## Membership -/

variable [Std.LawfulEqCmp cmp]

@[simp] theorem mem_insert {x z : α} {ys : List α} :
    z ∈ insert cmp x ys ↔ z = x ∨ z ∈ ys := by
  induction ys with
  | nil => simp [insert]
  | cons y ys ih =>
    unfold insert
    split
    · simp
    · rename_i h
      have hxy : x = y := Std.LawfulEqCmp.eq_of_compare h
      simp [hxy]
    · simp only [List.mem_cons, ih]
      constructor <;> rintro (h | h | h) <;> simp [h]

@[simp] theorem mem_ofList {z : α} {xs : List α} : z ∈ ofList cmp xs ↔ z ∈ xs := by
  induction xs with
  | nil => simp
  | cons x xs ih => simp [ih]

/-! ## Order -/

variable {cmp} in
theorem Increasing.nodup {xs : List α} (h : Increasing cmp xs) : xs.Nodup := by
  refine List.Pairwise.imp ?_ h
  rintro x _ hlt rfl
  rw [@Std.ReflCmp.compare_self _ cmp] at hlt
  contradiction

variable [Std.TransCmp cmp]

theorem Increasing.insert {ys : List α} (h : Increasing cmp ys) (x : α) :
    Increasing cmp (insert cmp x ys) := by
  induction ys with
  | nil => simp [Ordered.insert, Increasing]
  | cons y ys ih =>
    obtain ⟨hy, hys⟩ := List.pairwise_cons.mp h
    unfold Ordered.insert
    split
    · rename_i hxy
      refine List.pairwise_cons.mpr ⟨?_, h⟩
      intro z hz
      rcases List.mem_cons.mp hz with rfl | hz
      · exact hxy
      · exact Std.TransCmp.lt_trans hxy (hy z hz)
    · exact h
    · rename_i hxy
      refine List.pairwise_cons.mpr ⟨?_, ih hys⟩
      intro z hz
      rcases (mem_insert cmp).mp hz with rfl | hz
      · exact Std.OrientedCmp.gt_iff_lt.mp hxy
      · exact hy z hz

theorem increasing_ofList (xs : List α) : Increasing cmp (ofList cmp xs) := by
  induction xs with
  | nil => simp [Increasing]
  | cons x xs ih => exact ih.insert cmp x

/-! ## Equality -/

variable {cmp}

/-- Increasing lists with the same members are equal. -/
theorem Increasing.eq_of_mem_iff {xs ys : List α} (hx : Increasing cmp xs)
    (hy : Increasing cmp ys) (h : ∀ z, z ∈ xs ↔ z ∈ ys) : xs = ys := by
  have hperm : xs.Perm ys := (List.perm_ext_iff_of_nodup hx.nodup hy.nodup).mpr h
  refine hperm.eq_of_pairwise ?_ hx hy
  intro x y _ _ hxy hyx
  rw [Std.OrientedCmp.gt_iff_lt.mpr hyx] at hxy
  contradiction

/-- A list that is increasing already is the list of its own members. -/
theorem Increasing.ofList_eq {xs : List α} (h : Increasing cmp xs) : ofList cmp xs = xs :=
  (increasing_ofList cmp xs).eq_of_mem_iff h fun _ => mem_ofList cmp

/-! ## Images -/

section Images

variable {α β : Type} {cmp : α → α → Ordering} {cmp' : β → β → Ordering} {r : α → β}

/-- A map that keeps the order takes the place of a member to the place of its image. -/
theorem insert_map (hr : ∀ x y, cmp' (r x) (r y) = cmp x y) (x : α) (ys : List α) :
    insert cmp' (r x) (ys.map r) = (insert cmp x ys).map r := by
  induction ys with
  | nil => rfl
  | cons y ys ih =>
    rw [List.map_cons, insert, insert, hr]
    cases cmp x y with
    | lt => rfl
    | eq => rfl
    | gt => simp only [ih, List.map_cons]

theorem ofList_map (hr : ∀ x y, cmp' (r x) (r y) = cmp x y) (xs : List α) :
    ofList cmp' (xs.map r) = (ofList cmp xs).map r := by
  induction xs with
  | nil => rfl
  | cons x xs ih => rw [List.map_cons, ofList_cons, ih, insert_map hr, ofList_cons]

end Images

end Clausal.Ordered
