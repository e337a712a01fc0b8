import Clausal.Proofs.Search.Assignment
import Clausal.Proofs.Search.Store

/-!
# Visits of watchers

A visit of the watchers of a literal rearranges stored clauses and assigns literals. `Visiting` is
what holds in the middle of one. Its first fields hold for any literal visited; the last two say
what the visit is for, and need the literal to be false.
-/

namespace Clausal.Search

/-! ## Rearranging clauses -/

/-- The clauses of the same number are related. -/
structure Pointwise (R : StoredClause → StoredClause → Prop) (cs ds : Array StoredClause) :
    Prop where
  size : ds.size = cs.size
  rel : ∀ (key : Nat) (c d : StoredClause), cs[key]? = some c → ds[key]? = some d → R c d

/-- The clauses have the same literals, in another order. -/
abbrev Rearranged : Array StoredClause → Array StoredClause → Prop :=
  Pointwise fun c d => d.literals.Perm c.literals

namespace Pointwise

variable {R Q : StoredClause → StoredClause → Prop} {cs ds : Array StoredClause}
  {c d : StoredClause} {key : Nat}

theorem to_right (h : Pointwise R cs ds) (hc : cs[key]? = some c) :
    ∃ d, ds[key]? = some d ∧ R c d := by
  obtain ⟨hlt, -⟩ := Array.getElem?_eq_some_iff.mp hc
  rw [← h.size] at hlt
  have hd := Array.getElem?_eq_getElem hlt
  exact ⟨_, hd, h.rel key c _ hc hd⟩

theorem to_left (h : Pointwise R cs ds) (hd : ds[key]? = some d) :
    ∃ c, cs[key]? = some c ∧ R c d := by
  obtain ⟨hlt, -⟩ := Array.getElem?_eq_some_iff.mp hd
  rw [h.size] at hlt
  have hc := Array.getElem?_eq_getElem hlt
  exact ⟨_, hc, h.rel key _ d hc hd⟩

theorem refl (hR : ∀ c, R c c) (cs : Array StoredClause) : Pointwise R cs cs where
  size := rfl
  rel _ c d hc hd := by
    rw [hc] at hd
    cases hd
    exact hR c

theorem mono (h : Pointwise R cs ds) (hRQ : ∀ c d, R c d → Q c d) : Pointwise Q cs ds :=
  ⟨h.size, fun key c d hc hd => hRQ c d (h.rel key c d hc hd)⟩

theorem trans {es : Array StoredClause} (h : Pointwise R cs ds) (h' : Pointwise R ds es)
    (hR : ∀ c d e, R c d → R d e → R c e) : Pointwise R cs es := by
  refine ⟨h'.size.trans h.size, fun key c e hc he => ?_⟩
  obtain ⟨d, hd, hcd⟩ := h.to_right hc
  exact hR c d e hcd (h'.rel key d e hd he)

/-- Replacing a clause asks for the relation at that clause only. -/
theorem set (h : Pointwise R cs ds) (hd : ∀ c, cs[key]? = some c → R c d) :
    Pointwise R cs (ds.setIfInBounds key d) := by
  refine ⟨by simp [h.size], fun k c e hc he => ?_⟩
  rw [Array.getElem?_setIfInBounds] at he
  split at he
  · rename_i hk
    subst hk
    split at he
    · cases he
      exact hd c hc
    · cases he
  · exact h.rel k c e hc he

end Pointwise

theorem Rearranged.trans {cs ds es : Array StoredClause} (h : Rearranged cs ds)
    (h' : Rearranged ds es) : Rearranged cs es :=
  Pointwise.trans h h' fun _ _ _ hcd hde => hde.trans hcd

theorem Rearranged.symm {cs ds : Array StoredClause} (h : Rearranged cs ds) : Rearranged ds cs :=
  ⟨h.size.symm, fun key d c hd hc => (h.rel key c d hc hd).symm⟩

theorem Rearranged.set {cs : Array StoredClause} {key : Nat} {c d : StoredClause}
    (hc : cs[key]? = some c) (hp : d.literals.Perm c.literals) :
    Rearranged cs (cs.setIfInBounds key d) := by
  apply (Pointwise.refl (fun c => List.Perm.refl c.literals) cs).set
  intro c' hc'
  rw [hc] at hc'
  cases hc'
  exact hp

/-- What a visit of the watchers of `f` may do to a clause: the watched literals stay, or the place
of `f` is taken by a literal that was not false. -/
structure Moved (a : Assignment) (f : Literal) (c d : StoredClause) : Prop where
  perm : d.literals.Perm c.literals
  pair : (∀ w o, d.Pair w o ↔ c.Pair w o) ∨
    ∃ o m, c.Pair f o ∧ d.Pair o m ∧ m ≠ f ∧ a.valueOf m ≠ some false

theorem Moved.refl (a : Assignment) (f : Literal) (c : StoredClause) : Moved a f c c :=
  ⟨List.Perm.refl _, .inl fun _ _ => Iff.rfl⟩

/-- A clause that still watches `f` watches what it did. -/
theorem Moved.pair_iff {a : Assignment} {f : Literal} {n : Nat} {c d : StoredClause}
    (h : Moved a f c d) (hc : c.literals.Proper n) (hf : d.Watches f) :
    ∀ w o, d.Pair w o ↔ c.Pair w o := by
  rcases h.pair with h | ⟨o, m, hco, hdo, hmf, -⟩
  · exact h
  · have hof : f ≠ o := hco.ne hc
    rcases hdo with ⟨rfl, rfl⟩ | ⟨rfl, rfl⟩ <;> rcases hf with rfl | rfl
    · exact absurd rfl hof
    · exact absurd rfl hmf
    · exact absurd rfl hmf
    · exact absurd rfl hof

/-- The literal at position `i` of a trail is the only one of some clause that the trail before it
does not make false. -/
def Forced (clauses : Array StoredClause) (trail : Array Literal) (i : Nat) (l : Literal) : Prop :=
  ∃ (key : Nat) (c : StoredClause), clauses[key]? = some c ∧ l ∈ c.literals ∧
    ∀ m ∈ c.literals, m ≠ l → ∃ j < i, trail[j]? = some (-m)

theorem Forced.rearranged {cs ds : Array StoredClause} {trail : Array Literal} {i : Nat}
    {l : Literal} (h : Forced cs trail i l) (hr : Rearranged cs ds) : Forced ds trail i l := by
  obtain ⟨key, c, hc, hl, hm⟩ := h
  obtain ⟨d, hd, hp⟩ := hr.to_right hc
  exact ⟨key, d, hd, hp.mem_iff.mpr hl, fun m hmd => hm m (hp.mem_iff.mp hmd)⟩

theorem Forced.of_trail {clauses : Array StoredClause} {trail trail' : Array Literal} {i : Nat}
    {l : Literal} (h : Forced clauses trail i l) (ht : ∀ j < i, trail'[j]? = trail[j]?) :
    Forced clauses trail' i l := by
  obtain ⟨key, c, hc, hl, hm⟩ := h
  refine ⟨key, c, hc, hl, fun m hmc hne => ?_⟩
  obtain ⟨j, hj, hjm⟩ := hm m hmc hne
  exact ⟨j, hj, (ht j hj).trans hjm⟩

/-! ## Longer trails -/

namespace Assignment

variable {a b : Assignment} {l : Literal} {i : Nat}

theorem getElem?_of_isPrefix (h : a.trail.toList <+: b.trail.toList) (hi : a.trail[i]? = some l) :
    b.trail[i]? = some l := by
  obtain ⟨rest, hrest⟩ := h
  rw [← Array.getElem?_toList] at hi ⊢
  rw [← hrest, List.getElem?_append_left (List.getElem?_eq_some_iff.mp hi).1, hi]

theorem getElem?_eq_of_isPrefix (h : a.trail.toList <+: b.trail.toList) (hi : i < a.trail.size) :
    b.trail[i]? = a.trail[i]? := by
  have ha : a.trail[i]? = some a.trail[i] := by simp
  rw [ha, getElem?_of_isPrefix h ha]

theorem mem_of_isPrefix (h : a.trail.toList <+: b.trail.toList) (hl : l ∈ a.trail) :
    l ∈ b.trail :=
  Array.mem_toList_iff.mp (h.subset (Array.mem_toList_iff.mpr hl))

theorem isPrefix_assign (a : Assignment) (l : Literal) :
    a.trail.toList <+: (a.assign l).trail.toList := by
  unfold assign
  split
  · simp
  · exact List.prefix_refl _

end Assignment

/-! ## In the middle of a visit -/

/-- What holds after the watchers in `kept` have been visited, with those in `pending` still to
come. `a₀` and `s₀` are what the visit began with. -/
structure Visiting (f : Literal) (a₀ : Assignment) (s₀ : Store) (a : Assignment) (s : Store)
    (kept pending : List Nat) : Prop where
  consistent₀ : a₀.Consistent
  wellFormed₀ : s₀.WellFormed a₀.atomCount
  consistent : a.Consistent
  atomCount : a.atomCount = a₀.atomCount
  trail : a₀.trail.toList <+: a.trail.toList
  size_watchers : s.watchers.size = s₀.watchers.size
  mirrors : Mirrors s.clauses fun l =>
    if l = f then kept.reverse ++ pending else s.watchersOf l
  moved : Pointwise (Moved a₀ f) s₀.clauses s.clauses
  forced : -f ∈ a₀.trail → ∀ i l, a₀.trail.size ≤ i → a.trail[i]? = some l →
    Forced s.clauses a.trail i l
  kept : -f ∈ a₀.trail → ∀ key ∈ kept, ∀ c o, s.clauses[key]? = some c → c.Pair f o →
    o ∈ a.trail

namespace Visiting

variable {f : Literal} {a₀ a : Assignment} {s₀ s : Store} {kept pending : List Nat} {key : Nat}
  {c d : StoredClause}

theorem start (ha : a.Consistent) (hs : s.WellFormed a.atomCount) (f : Literal) :
    Visiting f a s a s [] (s.watchersOf f) where
  consistent₀ := ha
  wellFormed₀ := hs
  consistent := ha
  atomCount := rfl
  trail := List.prefix_refl _
  size_watchers := rfl
  mirrors := by
    apply hs.mirrors.congr
    intro l
    by_cases hl : l = f
    · simp [hl]
    · simp [hl]
  moved := Pointwise.refl (Moved.refl a f) _
  forced _ i l hi hl := by
    have := (Array.getElem?_eq_some_iff.mp hl).1
    omega
  kept _ key hkey := by simp at hkey

theorem rearranged (h : Visiting f a₀ s₀ a s kept pending) : Rearranged s₀.clauses s.clauses :=
  h.moved.mono fun _ _ hm => hm.perm

theorem proper (h : Visiting f a₀ s₀ a s kept pending) (hc : s.clauses[key]? = some c) :
    c.literals.Proper a.atomCount := by
  obtain ⟨c₀, hc₀, hp⟩ := h.rearranged.to_left hc
  rw [h.atomCount]
  exact (h.wellFormed₀.proper key c₀ hc₀).perm hp

/-- The next clause is stored and watches the literal visited. -/
theorem next (h : Visiting f a₀ s₀ a s kept (key :: pending)) :
    ∃ c, s.clauses[key]? = some c ∧ c.Watches f := by
  rw [← h.mirrors.mem]
  simp

theorem pair_iff (h : Visiting f a₀ s₀ a s kept pending) (hc : s.clauses[key]? = some c)
    (hf : c.Watches f) : ∃ c₀, s₀.clauses[key]? = some c₀ ∧ c.literals.Perm c₀.literals ∧
      ∀ w o, c.Pair w o ↔ c₀.Pair w o := by
  obtain ⟨c₀, hc₀, hm⟩ := h.moved.to_left hc
  exact ⟨c₀, hc₀, hm.perm, hm.pair_iff (h.wellFormed₀.proper key c₀ hc₀) hf⟩

/-! ## Steps -/

/-- Bringing the literal visited to the second place of the next clause. -/
theorem face (h : Visiting f a₀ s₀ a s kept (key :: pending)) (hc : s.clauses[key]? = some c) :
    Visiting f a₀ s₀ a (s.setClause key (c.facing f)) kept (key :: pending) ∧
      (s.setClause key (c.facing f)).clauses[key]? = some (c.facing f) ∧
      (c.facing f).second = f := by
  have hlt := (Array.getElem?_eq_some_iff.mp hc).1
  have hf : c.Watches f := by
    obtain ⟨c', hc', hf⟩ := h.next
    rw [hc] at hc'
    cases hc'
    exact hf
  have hr : Rearranged s.clauses (s.setClause key (c.facing f)).clauses :=
    Rearranged.set hc (StoredClause.perm_facing _ _)
  refine ⟨{ h with mirrors := ?_, moved := ?_, forced := ?_, kept := ?_ },
    by simp [Store.setClause, hlt], StoredClause.second_facing hf⟩
  · exact h.mirrors.set hc fun l => StoredClause.watches_facing
  · apply h.moved.set
    intro c₀ hc₀
    obtain ⟨c', hc', hp, hpair⟩ := h.pair_iff hc hf
    rw [hc₀] at hc'
    cases hc'
    exact ⟨(StoredClause.perm_facing _ _).trans hp,
      .inl fun w o => StoredClause.pair_facing.trans (hpair w o)⟩
  · intro hfalse i l hi hl
    exact (h.forced hfalse i l hi hl).rearranged hr
  · intro hfalse k hk d o hd ho
    simp only [Store.setClause, Array.getElem?_setIfInBounds] at hd
    split at hd
    · rename_i hkey
      subst hkey
      cases hd
      exact h.kept hfalse key hk c o hc (StoredClause.pair_facing.mp ho)
    · exact h.kept hfalse k hk d o hd ho

/-- Going on past a clause whose other watched literal is true. -/
theorem keep (h : Visiting f a₀ s₀ a s kept (key :: pending)) (hc : s.clauses[key]? = some c)
    (hs : c.second = f) (hf : c.first ∈ a.trail) :
    Visiting f a₀ s₀ a s (key :: kept) pending := by
  refine { h with mirrors := ?_, kept := ?_ }
  · simpa using h.mirrors
  · intro hfalse k hk d o hd ho
    rcases List.mem_cons.mp hk with rfl | hk
    · rw [hc] at hd
      cases hd
      have hne := StoredClause.Pair.ne (h.proper hc) (.inl ⟨rfl, rfl⟩)
      rcases ho with ⟨hfirst, -⟩ | ⟨rfl, -⟩
      · exact absurd (hfirst.trans hs.symm) hne
      · exact hf
    · exact h.kept hfalse k hk d o hd ho

/-- Assigning the other watched literal of a unit clause. -/
theorem assign (h : Visiting f a₀ s₀ a s kept (key :: pending)) (hc : s.clauses[key]? = some c)
    (hs : c.second = f) (hv : a.valueOf c.first = none)
    (hrest : ∀ m ∈ c.rest, a.valueOf m = some false) :
    Visiting f a₀ s₀ (a.assign c.first) s kept (key :: pending) ∧
      c.first ∈ (a.assign c.first).trail := by
  have hrange := (h.proper hc).range c.first (by simp [StoredClause.literals])
  have hopen : a.IsOpen c.first.atom := by
    rw [Assignment.isOpen_iff, Assignment.atomCount_eq h.consistent]
    exact ⟨by omega, Assignment.valueOf_eq_none_iff.mp hv⟩
  have htrail := Assignment.isPrefix_assign a c.first
  refine ⟨{ h with
    consistent := h.consistent.assign hopen (by omega)
    atomCount := (Assignment.atomCount_assign a _).trans h.atomCount
    trail := h.trail.trans htrail
    forced := ?_
    kept := fun hfalse k hk d o hd ho =>
      Assignment.mem_of_isPrefix htrail (h.kept hfalse k hk d o hd ho) },
    by simp [Assignment.trail_assign hopen]⟩
  intro hfalse i l hi hl
  have hbefore : ∀ j < a.trail.size, (a.assign c.first).trail[j]? = a.trail[j]? :=
    fun j hj => Assignment.getElem?_trail_assign hopen hj
  rcases Nat.lt_or_ge i a.trail.size with hlt | hge
  · rw [hbefore i hlt] at hl
    exact (h.forced hfalse i l hi hl).of_trail fun j hj => hbefore j (Nat.lt_trans hj hlt)
  -- the new literal is forced by the clause that is unit
  · obtain ⟨rfl, rfl⟩ := Assignment.eq_of_getElem?_trail_assign hopen hge hl
    refine ⟨key, c, hc, by simp [StoredClause.literals], fun m hm hne => ?_⟩
    have hmem : -m ∈ a.trail := by
      simp only [StoredClause.literals, List.mem_cons] at hm
      rcases hm with rfl | rfl | hm
      · exact absurd rfl hne
      · rw [hs]
        exact Assignment.mem_of_isPrefix h.trail hfalse
      · exact h.consistent.valueOf_false.mp (hrest m hm)
    obtain ⟨j, hj⟩ := Array.mem_iff_getElem?.mp hmem
    have hlt := (Array.getElem?_eq_some_iff.mp hj).1
    exact ⟨j, hlt, (hbefore j hlt).trans hj⟩

theorem perm_lastToFront {α : Type} (xs : List α) : (lastToFront xs).Perm xs := by
  cases xs with
  | nil => exact List.Perm.refl _
  | cons x xs =>
    rw [lastToFront, List.getLast?_eq_some_getLast (List.cons_ne_nil x xs)]
    have happ := List.dropLast_concat_getLast (List.cons_ne_nil x xs)
    calc (x :: xs).getLast _ :: (x :: xs).dropLast
      List.Perm _ ((x :: xs).dropLast ++ [(x :: xs).getLast _]) :=
        (List.perm_append_singleton _ _).symm
      List.Perm _ (x :: xs) := List.Perm.of_eq happ

/-- Letting the next clause watch another literal, which takes it from the list. -/
theorem rewatch (h : Visiting f a₀ s₀ a s kept (key :: pending)) (hc : s.clauses[key]? = some c)
    (hs : c.second = f) (hr : c.rewatch? a = some d) :
    Visiting f a₀ s₀ a ((s.setClause key d).watch d.second key) kept (lastToFront pending) := by
  obtain ⟨hfirst, hmem, hvalue, hp⟩ := StoredClause.rewatch?_eq_some hr
  have hproper := h.proper hc
  obtain ⟨hdo, hdf⟩ := StoredClause.second_ne_of_rewatch? hproper hr
  rw [hs] at hdf
  have hof : c.first ≠ f := hs ▸ StoredClause.Pair.ne hproper (.inl ⟨rfl, rfl⟩)
  have hslot : d.second.slot < s.watchers.size := by
    have hr := (hproper.range d.second (by simp [StoredClause.literals, hmem])).2
    rw [h.size_watchers, h.wellFormed₀.size_watchers, ← h.atomCount]
    exact Store.slot_lt hr
  have hrear : Rearranged s.clauses (s.setClause key d).clauses := Rearranged.set hc hp
  refine { h with size_watchers := ?_, mirrors := ?_, moved := ?_, forced := ?_, kept := ?_ }
  · simp [Store.watch, Store.setClause, h.size_watchers]
  · have hperm : (if f = f then kept.reverse ++ key :: pending else s.watchersOf f).Perm
        (key :: (kept.reverse ++ pending)) := by simp
    refine (h.mirrors.move hc (.inl ⟨rfl, hs⟩) (.inl ⟨hfirst, rfl⟩) hdf hof hdo hperm).congr
      fun l => ?_
    rw [Store.watchersOf_watch]
    by_cases hl : l = f
    · simp only [hl, ↓reduceIte]
      exact (perm_lastToFront pending).append_left _
    · by_cases hld : l = d.second
      · simp [hld, hslot, hdf, Store.watchersOf, Store.setClause]
      · simp [hl, hld, Store.watchersOf, Store.setClause]
  · apply h.moved.set
    intro c₀ hc₀
    obtain ⟨c', hc', hp', hpair⟩ := h.pair_iff hc (.inr hs)
    rw [hc₀] at hc'
    cases hc'
    refine ⟨hp.trans hp', .inr ⟨c.first, d.second, ?_, .inl ⟨hfirst, rfl⟩, hdf, ?_⟩⟩
    · exact (hpair _ _).mp (.inr ⟨rfl, hs⟩)
    · intro hfalse
      apply hvalue
      rw [h.consistent.valueOf_false]
      exact Assignment.mem_of_isPrefix h.trail (h.consistent₀.valueOf_false.mp hfalse)
  · intro hfalse i l hi hl
    exact (h.forced hfalse i l hi hl).rearranged hrear
  · intro hfalse k hk e o he ho
    simp only [Store.watch, Store.setClause, Array.getElem?_setIfInBounds] at he
    split at he
    -- the clause does not watch the literal any more
    · split at he
      · cases he
        rcases ho with ⟨hw, -⟩ | ⟨-, hw⟩
        · exact absurd (hfirst.symm.trans hw) hof
        · exact absurd hw hdf
      · cases he
    · exact h.kept hfalse k hk e o he ho

end Visiting

/-! ## A whole visit -/

/-- A clause all of whose literals are false. -/
def IsFalse (a : Assignment) (c : StoredClause) : Prop := ∀ m ∈ c.literals, -m ∈ a.trail

/-- A visit ends with no watcher pending, or at a clause that is false. -/
theorem visiting_visit {f : Literal} {a₀ a : Assignment} {s₀ s : Store} {kept pending : List Nat}
    (h : Visiting f a₀ s₀ a s kept pending) :
    ∃ kept' pending', Visiting f a₀ s₀ (visit f a s kept pending).assignment
        (visit f a s kept pending).store kept' pending' ∧
      (visit f a s kept pending).watchers = kept'.reverse ++ pending' ∧
      match (visit f a s kept pending).conflict? with
      | none => pending' = []
      | some key => -f ∈ a₀.trail → ∃ c, (visit f a s kept pending).store.clauses[key]? = some c ∧
          IsFalse (visit f a s kept pending).assignment c := by
  fun_induction visit f a s kept pending with
  | case1 a s kept => exact ⟨kept, [], h, by simp, rfl⟩
  -- every number in a list of watchers is that of a clause
  | case2 a s kept key pending hnone ih =>
    obtain ⟨c, hc, -⟩ := h.next
    rw [hnone] at hc
    cases hc
  -- the other watched literal is true
  | case3 a s kept key pending c₀ hc₀ c s' hj ih =>
    obtain ⟨hface, hget, hs⟩ := h.face hc₀
    have hspec := c.judge_spec a
    rw [hj] at hspec
    exact ih (hface.keep hget hs (hface.consistent.valueOf_true.mp hspec))
  -- another literal is watched
  | case4 a s kept key pending c₀ hc₀ c s' d hj ih =>
    obtain ⟨hface, hget, hs⟩ := h.face hc₀
    have hspec := c.judge_spec a
    rw [hj] at hspec
    exact ih (hface.rewatch hget hs hspec.2)
  -- the clause is unit, and kept once its literal is true
  | case5 a s kept key pending c₀ hc₀ c s' hj ih =>
    obtain ⟨hface, hget, hs⟩ := h.face hc₀
    have hspec := c.judge_spec a
    rw [hj] at hspec
    obtain ⟨hassign, hmem⟩ := hface.assign hget hs hspec.1 hspec.2
    exact ih (hassign.keep hget hs hmem)
  -- the clause is false
  | case6 a s kept key pending c₀ hc₀ c s' hj =>
    obtain ⟨hface, hget, hs⟩ := h.face hc₀
    have hspec := c.judge_spec a
    rw [hj] at hspec
    refine ⟨kept, key :: pending, hface, rfl, fun hfalse => ⟨c, hget, ?_⟩⟩
    intro m hm
    simp only [StoredClause.literals, List.mem_cons] at hm
    rcases hm with rfl | rfl | hm
    · exact hface.consistent.valueOf_false.mp hspec.1
    · rw [hs]
      exact Assignment.mem_of_isPrefix hface.trail hfalse
    · exact hface.consistent.valueOf_false.mp (hspec.2 m hm)

end Clausal.Search
