import Clausal.Proofs.Clause
import Clausal.Search.Propagation

/-!
# Stored clauses and the lists of their watchers

The lists of watchers mirror the stored clauses: a clause is once in the list of each of its two
watched literals, and in no other list. What the search does to a stored clause only permutes its
literals, so a clause stays what it is as a disjunction.
-/

namespace Clausal

theorem Literal.slot_injective {l m : Literal} (h : l.slot = m.slot) : l = m := by
  obtain ⟨a, p⟩ := l
  obtain ⟨b, q⟩ := m
  cases p <;> cases q <;> simp [slot] at h <;> simp <;> omega

namespace Search

namespace StoredClause

/-- The clause watches `w`, and its other watched literal is `o`. -/
def Pair (c : StoredClause) (w o : Literal) : Prop :=
  (c.first = w ∧ c.second = o) ∨ (c.first = o ∧ c.second = w)

/-- The clause watches a literal. -/
def Watches (c : StoredClause) (l : Literal) : Prop := c.first = l ∨ c.second = l

instance (c : StoredClause) (l : Literal) : Decidable (c.Watches l) :=
  inferInstanceAs (Decidable (_ ∨ _))

variable {c d : StoredClause} {l m w o : Literal}

theorem Pair.symm (h : c.Pair w o) : c.Pair o w := h.elim .inr .inl

theorem Pair.watches (h : c.Pair w o) : c.Watches w := by
  rcases h with ⟨h, -⟩ | ⟨-, h⟩
  · exact .inl h
  · exact .inr h

theorem watches_iff_pair : c.Watches l ↔ ∃ o, c.Pair l o := by
  constructor
  · intro h
    rcases h with h | h
    · exact ⟨c.second, .inl ⟨h, rfl⟩⟩
    · exact ⟨c.first, .inr ⟨rfl, h⟩⟩
  · intro hpair
    obtain ⟨o, h⟩ := hpair
    exact h.watches

theorem Watches.mem (h : c.Watches l) : l ∈ c.literals := by
  rcases h with rfl | rfl <;> simp [literals]

theorem Pair.ne {n : Nat} (hc : c.literals.Proper n) (h : c.Pair w o) : w ≠ o := by
  rintro rfl
  have hn := hc.nodup
  rcases h with ⟨h, h'⟩ | ⟨h, h'⟩ <;> simp [literals, h, h'] at hn

/-! ## Facing a literal -/

theorem pair_facing : (c.facing l).Pair w o ↔ c.Pair w o := by
  unfold facing
  split
  · simp only [Pair]
    constructor <;> rintro (⟨h, h'⟩ | ⟨h, h'⟩) <;> simp [h, h']
  · rfl

theorem watches_facing : (c.facing l).Watches w ↔ c.Watches w := by
  simp [watches_iff_pair, pair_facing]

theorem perm_facing (c : StoredClause) (l : Literal) :
    (c.facing l).literals.Perm c.literals := by
  unfold facing
  split
  · exact List.Perm.swap _ _ _
  · exact List.Perm.refl _

/-- A clause that watches the literal faced has it at the second place. -/
theorem second_facing (h : c.Watches l) : (c.facing l).second = l := by
  unfold facing
  split
  · assumption
  · rename_i hne
    exact h.resolve_left hne

/-! ## Watching another literal -/

theorem perm_exchange? {test : Literal → Bool} {ls ms : List Literal}
    (h : exchange? test l ls = some (m, ms)) :
    test m = true ∧ m ∈ ls ∧ (m :: ms).Perm (l :: ls) := by
  induction ls generalizing ms with
  | nil => simp [exchange?] at h
  | cons k ls ih =>
    unfold exchange? at h
    split at h
    · rename_i hk
      obtain ⟨rfl, rfl⟩ := Prod.mk.inj (Option.some.inj h)
      exact ⟨hk, by simp, List.Perm.swap _ _ _⟩
    · obtain ⟨⟨m', ms'⟩, h', hm⟩ := Option.map_eq_some_iff.mp h
      obtain ⟨rfl, rfl⟩ := Prod.mk.inj hm
      obtain ⟨ht, hmem, hp⟩ := ih h'
      refine ⟨ht, List.mem_cons_of_mem _ hmem, ?_⟩
      calc m' :: k :: ms'
        List.Perm _ (k :: m' :: ms') := List.Perm.swap _ _ _
        List.Perm _ (k :: l :: ls) := hp.cons k
        List.Perm _ (l :: k :: ls) := List.Perm.swap _ _ _

theorem exchange?_eq_none {test : Literal → Bool} {ls : List Literal}
    (h : exchange? test l ls = none) : ∀ m ∈ ls, test m = false := by
  induction ls with
  | nil => simp
  | cons k ls ih =>
    unfold exchange? at h
    split at h
    · cases h
    · rename_i hk
      intro m hm
      rcases List.mem_cons.mp hm with rfl | hm
      · simpa using hk
      · exact ih (Option.map_eq_none_iff.mp h) m hm

/-- A clause that goes on with another second literal took it from the rest, where it was not
false. -/
theorem rewatch?_eq_some {a : Assignment} (h : c.rewatch? a = some d) :
    d.first = c.first ∧ d.second ∈ c.rest ∧ a.valueOf d.second ≠ some false ∧
      d.literals.Perm c.literals := by
  unfold rewatch? at h
  obtain ⟨⟨m, ms⟩, h', rfl⟩ := Option.map_eq_some_iff.mp h
  obtain ⟨ht, hm, hp⟩ := perm_exchange? h'
  exact ⟨rfl, hm, by simpa using ht, hp.cons _⟩

/-- A proper clause goes on with a second literal that it did not watch. -/
theorem second_ne_of_rewatch? {n : Nat} {a : Assignment} (hc : c.literals.Proper n)
    (h : c.rewatch? a = some d) : d.second ≠ c.first ∧ d.second ≠ c.second := by
  obtain ⟨hfirst, hmem, -, hp⟩ := rewatch?_eq_some h
  constructor
  · rw [← hfirst]
    exact Pair.ne (hc.perm hp) (.inr ⟨rfl, rfl⟩)
  · intro heq
    have hnd := hc.nodup
    simp only [literals, List.map_cons, List.nodup_cons] at hnd
    apply hnd.2.1
    rw [← heq]
    exact List.mem_map_of_mem hmem

theorem rewatch?_eq_none {a : Assignment} (h : c.rewatch? a = none) :
    ∀ m ∈ c.rest, a.valueOf m = some false := by
  intro m hm
  simpa using exchange?_eq_none (Option.map_eq_none_iff.mp h) m hm

/-! ## Judging -/

/-- What each verdict on a clause says. -/
theorem judge_spec (c : StoredClause) (a : Assignment) :
    match c.judge a with
    | .satisfied => a.valueOf c.first = some true
    | .rewatched d => a.valueOf c.first ≠ some true ∧ c.rewatch? a = some d
    | .unit => a.valueOf c.first = none ∧ ∀ m ∈ c.rest, a.valueOf m = some false
    | .conflict => a.valueOf c.first = some false ∧ ∀ m ∈ c.rest, a.valueOf m = some false := by
  unfold judge
  cases hf : a.valueOf c.first with
  | none =>
    cases hr : c.rewatch? a with
    | some d => exact ⟨by simp, rfl⟩
    | none => exact ⟨rfl, rewatch?_eq_none hr⟩
  | some b =>
    cases b with
    | true => rfl
    | false =>
      cases hr : c.rewatch? a with
      | some d => exact ⟨by simp, rfl⟩
      | none => exact ⟨rfl, rewatch?_eq_none hr⟩

end StoredClause

/-! ## Mirrors -/

/-- The lists hold the numbers of the clauses that watch each literal, once each. -/
structure Mirrors (clauses : Array StoredClause) (lists : Literal → List Nat) : Prop where
  nodup : ∀ l, (lists l).Nodup
  mem : ∀ l key, key ∈ lists l ↔ ∃ c, clauses[key]? = some c ∧ c.Watches l

namespace Mirrors

variable {clauses : Array StoredClause} {lists : Literal → List Nat}

theorem congr (h : Mirrors clauses lists) {lists' : Literal → List Nat}
    (hp : ∀ l, (lists' l).Perm (lists l)) : Mirrors clauses lists' where
  nodup l := (hp l).nodup_iff.mpr (h.nodup l)
  mem l key := (hp l).mem_iff.trans (h.mem l key)

/-- Changing a clause, but not what it watches, keeps the mirror. -/
theorem set (h : Mirrors clauses lists) {key : Nat} {c d : StoredClause}
    (hc : clauses[key]? = some c) (hd : ∀ l, d.Watches l ↔ c.Watches l) :
    Mirrors (clauses.setIfInBounds key d) lists where
  nodup := h.nodup
  mem l k := by
    rw [h.mem]
    simp only [Array.getElem?_setIfInBounds]
    by_cases hk : key = k
    · subst hk
      have hlt := (Array.getElem?_eq_some_iff.mp hc).1
      simp only [hc, hlt, ↓reduceIte, Option.some.injEq, exists_eq_left', hd]
    · simp [hk]

/-- A clause that is stored is put at the end of the lists of the literals it watches. -/
theorem push (h : Mirrors clauses lists) (c : StoredClause) :
    Mirrors (clauses.push c)
      (fun l => if c.Watches l then lists l ++ [clauses.size] else lists l) := by
  have hnew : ∀ l, clauses.size ∉ lists l := by
    intro l hl
    obtain ⟨d, hd, -⟩ := (h.mem l _).mp hl
    simp at hd
  constructor
  · intro l
    by_cases hl : c.Watches l
    · rw [if_pos hl]
      apply (List.perm_append_singleton _ _).nodup_iff.mpr
      exact List.nodup_cons.mpr ⟨hnew l, h.nodup l⟩
    · rw [if_neg hl]
      exact h.nodup l
  · intro l key
    rw [Array.getElem?_push]
    by_cases hkey : key = clauses.size
    · subst hkey
      by_cases hl : c.Watches l
      · simp [hl]
      · simp [hl, hnew l]
    · rw [if_neg hkey, ← h.mem]
      split
      · simp [hkey]
      · rfl

/-- Letting a clause watch `m` in place of `w` moves its number from one list to the other. -/
theorem move (h : Mirrors clauses lists) {key : Nat} {c d : StoredClause} {w o m : Literal}
    (hc : clauses[key]? = some c) (hw : c.Pair o w) (hd : d.Pair o m) (hmw : m ≠ w) (how : o ≠ w)
    (hmo : m ≠ o) {keys : List Nat} (hkeys : (lists w).Perm (key :: keys)) :
    Mirrors (clauses.setIfInBounds key d)
      (fun l => if l = w then keys else if l = m then lists m ++ [key] else lists l) := by
  have hlt := (Array.getElem?_eq_some_iff.mp hc).1
  have hnd : (key :: keys).Nodup := hkeys.nodup_iff.mp (h.nodup w)
  have hmem : ∀ k, k ∈ lists w ↔ k = key ∨ k ∈ keys := by
    intro k
    rw [hkeys.mem_iff, List.mem_cons]
  have hcw : ∀ l, c.Watches l ↔ l = o ∨ l = w := by
    intro l
    rcases hw with ⟨rfl, rfl⟩ | ⟨rfl, rfl⟩ <;> simp [StoredClause.Watches, eq_comm, or_comm]
  have hdw : ∀ l, d.Watches l ↔ l = o ∨ l = m := by
    intro l
    rcases hd with ⟨rfl, rfl⟩ | ⟨rfl, rfl⟩ <;> simp [StoredClause.Watches, eq_comm, or_comm]
  constructor
  · intro l
    by_cases hlw : l = w
    · simpa [hlw] using (List.nodup_cons.mp hnd).2
    · by_cases hlm : l = m
      -- the clause did not watch `m` before
      · have hnot : key ∉ lists m := by
          rw [h.mem]
          intro hmem
          obtain ⟨c', hc', hm⟩ := hmem
          rw [hc] at hc'
          cases hc'
          rcases (hcw m).mp hm with hm | hm
          · exact hmo hm
          · exact hmw hm
        simp only [hlm, hmw, ↓reduceIte]
        apply (List.perm_append_singleton _ _).nodup_iff.mpr
        exact List.nodup_cons.mpr ⟨hnot, h.nodup m⟩
      · simpa [hlw, hlm] using h.nodup l
  -- the clause that moves is in the lists of `o` and `m`, and every other clause where it was
  · intro l k
    simp only [Array.getElem?_setIfInBounds]
    by_cases hk : key = k
    · subst hk
      simp only [↓reduceIte, hlt, Option.some.injEq, exists_eq_left', hdw]
      by_cases hlw : l = w
      · subst hlw
        simp [(List.nodup_cons.mp hnd).1, Ne.symm how, Ne.symm hmw]
      · by_cases hlm : l = m
        · simp [hlm, hmw]
        · simp only [hlw, hlm, ↓reduceIte, or_false, h.mem, hc, Option.some.injEq,
            exists_eq_left', hcw]
    · simp only [hk, ↓reduceIte]
      by_cases hlw : l = w
      · subst hlw
        rw [if_pos rfl, ← h.mem, hmem]
        simp [Ne.symm hk]
      · by_cases hlm : l = m
        · subst hlm
          rw [if_neg hlw, if_pos rfl, ← h.mem]
          simp [Ne.symm hk]
        · rw [if_neg hlw, if_neg hlm, h.mem]

end Mirrors

/-! ## Lists of a store -/

namespace Store

variable {s : Store} {l m : Literal} {key : Nat}

theorem watchersOf_eq_nil (h : ¬ l.slot < s.watchers.size) : s.watchersOf l = [] := by
  unfold watchersOf
  rw [Array.getElem?_eq_none_iff.mpr (Nat.not_lt.mp h)]
  rfl

theorem watchersOf_setWatchers (s : Store) (l m : Literal) (keys : List Nat) :
    (s.setWatchers l keys).watchersOf m
      = if m = l ∧ l.slot < s.watchers.size then keys else s.watchersOf m := by
  unfold watchersOf setWatchers
  simp only [Array.getElem?_setIfInBounds]
  by_cases h : m = l
  · subst h
    by_cases hlt : m.slot < s.watchers.size
    · simp [hlt]
    · simp [hlt]
  · have hs : l.slot ≠ m.slot := fun hs => h (Literal.slot_injective hs).symm
    simp [h, hs]

theorem watchersOf_watch (s : Store) (l m : Literal) (key : Nat) :
    (s.watch l key).watchersOf m
      = if m = l ∧ l.slot < s.watchers.size then s.watchersOf l ++ [key] else s.watchersOf m := by
  unfold watchersOf watch
  simp only [Array.getElem?_modify]
  by_cases h : m = l
  · subst h
    by_cases hlt : m.slot < s.watchers.size
    · simp [hlt]
    · simp [hlt]
  · have hs : l.slot ≠ m.slot := fun hs => h (Literal.slot_injective hs).symm
    simp [h, hs]

theorem watchersOf_grow (s : Store) (index : Nat) (l : Literal) :
    (s.grow index).watchersOf l = s.watchersOf l := by
  simp only [watchersOf, grow, Array.getElem?_append, Array.getElem?_replicate]
  split
  · rfl
  · rename_i h
    rw [Array.getElem?_eq_none_iff.mpr (Nat.not_lt.mp h)]
    split <;> rfl

theorem watchersOf_new (n : Nat) (l : Literal) : (new n).watchersOf l = [] := by
  simp only [watchersOf, new, Array.getElem?_replicate]
  split <;> rfl

theorem slot_lt {n : Nat} (h : l.atom ≤ n) : l.slot < 2 * (n + 1) := by
  unfold Literal.slot
  split <;> omega

/-- The stored clauses are over `n` atoms, and the lists mirror them. -/
structure WellFormed (s : Store) (n : Nat) : Prop where
  size_watchers : s.watchers.size = 2 * (n + 1)
  proper : ∀ (key : Nat) (c : StoredClause), s.clauses[key]? = some c → c.literals.Proper n
  mirrors : Mirrors s.clauses s.watchersOf

theorem wellFormed_new (n : Nat) : (new n).WellFormed n where
  size_watchers := by simp [new]
  proper key c h := by simp [new] at h
  mirrors := by
    constructor
    · intro l
      rw [watchersOf_new]
      exact List.nodup_nil
    · intro l key
      rw [watchersOf_new]
      simp [new]

theorem WellFormed.grow {n : Nat} (h : s.WellFormed n) (index : Nat) :
    (s.grow index).WellFormed (max n index) where
  size_watchers := by
    have := h.size_watchers
    simp only [Store.grow, Array.size_append, Array.size_replicate]
    omega
  proper key c hc := (h.proper key c hc).mono (Nat.le_max_left _ _)
  mirrors := by
    rw [show (s.grow index).watchersOf = s.watchersOf from funext (watchersOf_grow s index)]
    exact h.mirrors

theorem clauses_add (s : Store) (c : StoredClause) : (s.add c).clauses = s.clauses.push c := rfl

theorem watchersOf_add (s : Store) (c : StoredClause) (hne : c.first ≠ c.second)
    (hslot : ∀ l, c.Watches l → l.slot < s.watchers.size) (l : Literal) :
    (s.add c).watchersOf l
      = if c.Watches l then s.watchersOf l ++ [s.clauses.size] else s.watchersOf l := by
  let t : Store := { s with clauses := s.clauses.push c }
  have hsize : (t.watch c.first s.clauses.size).watchers.size = s.watchers.size := by
    simp [t, watch]
  have hf := hslot c.first (.inl rfl)
  have hs := hslot c.second (.inr rfl)
  show ((t.watch c.first s.clauses.size).watch c.second s.clauses.size).watchersOf l = _
  rw [watchersOf_watch, watchersOf_watch, watchersOf_watch, hsize]
  by_cases hlf : l = c.first
  · subst hlf
    simp [t, hf, hs, hne, StoredClause.Watches, watchersOf]
  · by_cases hls : l = c.second
    · subst hls
      simp [t, hs, Ne.symm hne, StoredClause.Watches, watchersOf]
    · simp [t, hlf, hls, Ne.symm hlf, Ne.symm hls, StoredClause.Watches, watchersOf]

theorem WellFormed.add {n : Nat} (h : s.WellFormed n) {c : StoredClause}
    (hc : c.literals.Proper n) : (s.add c).WellFormed n where
  size_watchers := by simp [Store.add, watch, h.size_watchers]
  proper key d hd := by
    rw [clauses_add, Array.getElem?_push] at hd
    split at hd
    · cases hd
      exact hc
    · exact h.proper key d hd
  mirrors := by
    have hne : c.first ≠ c.second := StoredClause.Pair.ne hc (.inl ⟨rfl, rfl⟩)
    have hslot : ∀ l, c.Watches l → l.slot < s.watchers.size := by
      intro l hl
      rw [h.size_watchers]
      exact slot_lt (hc.range l hl.mem).2
    rw [clauses_add, funext (watchersOf_add s c hne hslot)]
    exact h.mirrors.push c

end Store

end Search

end Clausal
