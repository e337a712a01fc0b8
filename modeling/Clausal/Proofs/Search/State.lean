import Clausal.Proofs.Search.Visit
import Clausal.Search.Levels

/-!
# States of a search

A state is well-formed when its parts fit together, whatever has been done to it. It represents
the clauses it was given when, beside that, nothing of them is lost and nothing is on the trail
without a reason: `Represents.satisfiedAll_iff` says that the stored clauses and the ground part of
the trail, which is what lies below every level, have the valuations of the clauses given.

Closing a level, opening one and propagating each keep both; `Extends` is what propagation does.
-/

namespace Clausal.Search

/-- The parts of a state fit together. -/
structure WellFormed (s : Search) : Prop where
  assignment : s.assignment.Consistent
  store : s.store.WellFormed s.assignment.atomCount
  sorted : s.levels.Pairwise fun level below => below.start < level.start
  decisions : ∀ level ∈ s.levels, s.assignment.trail[level.start]? = some level.decision

/-- Position `i` of the trail lies below every level. -/
def Ground (s : Search) (i : Nat) : Prop := ∀ level ∈ s.levels, i < level.start

/-- The reason why a literal is at position `i` of the trail: it was decided, or is a clause on its
own, or is forced by a stored clause. -/
def Justified (cs : List Clause) (s : Search) (i : Nat) (l : Literal) : Prop :=
  (∃ level ∈ s.levels, level.start = i) ∨ (s.Ground i ∧ ∃ c ∈ cs, c.canonical = [l]) ∨
    Forced s.store.clauses s.assignment.trail i l

/-- A valuation satisfies every stored clause. -/
def StoreTrue (v : Nat → Bool) (s : Search) : Prop :=
  ∀ (key : Nat) (c : StoredClause), s.store.clauses[key]? = some c →
    Clause.satisfiedBy v c.literals = true

/-- A valuation makes the ground part of the trail true. -/
def GroundTrue (v : Nat → Bool) (s : Search) : Prop :=
  ∀ i l, s.assignment.trail[i]? = some l → s.Ground i → l.trueUnder v = true

/-- The state stands for the clauses given. -/
structure Represents (cs : List Clause) (s : Search) : Prop where
  wellFormed : s.WellFormed
  justified : ∀ i l, s.assignment.trail[i]? = some l → Justified cs s i l
  sound : ∀ v, Clause.SatisfiedAll v cs → s.inconsistent = false ∧ StoreTrue v s
  complete : ∀ v, s.inconsistent = false → StoreTrue v s → GroundTrue v s →
    Clause.SatisfiedAll v cs

variable {s t : Search} {cs : List Clause} {v : Nat → Bool} {l : Literal}

/-! ## Parts that do not matter -/

theorem WellFormed.of_eq (h : s.WellFormed) (ha : t.assignment = s.assignment)
    (hs : t.store = s.store) (hl : t.levels = s.levels) : t.WellFormed := by
  constructor
  · rw [ha]; exact h.assignment
  · rw [ha, hs]; exact h.store
  · rw [hl]; exact h.sorted
  · rw [ha, hl]; exact h.decisions

theorem Represents.of_eq (h : Represents cs s) (ha : t.assignment = s.assignment)
    (hs : t.store = s.store) (hl : t.levels = s.levels) (hi : t.inconsistent = s.inconsistent) :
    Represents cs t := by
  constructor
  · exact h.wellFormed.of_eq ha hs hl
  · unfold Justified Ground
    rw [ha, hs, hl]
    exact h.justified
  · unfold StoreTrue
    rw [hs, hi]
    exact h.sound
  · unfold StoreTrue GroundTrue Ground
    rw [ha, hs, hl, hi]
    exact h.complete

/-- A literal stays justified where each of the three reasons does. -/
theorem Justified.imp {ds : List Clause} {i : Nat} (h : Justified cs s i l)
    (hlevels : ∀ level ∈ s.levels, level.start = i → level ∈ t.levels)
    (hground : s.Ground i → t.Ground i) (hcs : ∀ c ∈ cs, c ∈ ds)
    (hforced : Forced s.store.clauses s.assignment.trail i l →
      Forced t.store.clauses t.assignment.trail i l) : Justified ds t i l := by
  rcases h with ⟨level, hlevel, hstart⟩ | ⟨hg, c, hc, hcl⟩ | hf
  · exact .inl ⟨level, hlevels level hlevel hstart, hstart⟩
  · exact .inr (.inl ⟨hground hg, c, hcs c hc, hcl⟩)
  · exact .inr (.inr (hforced hf))

theorem WellFormed.store_assign (h : s.WellFormed) (l : Literal) :
    s.store.WellFormed (s.assignment.assign l).atomCount := by
  rw [Assignment.atomCount_assign]
  exact h.store

/-! ## What the trail says -/

/-- A forced literal is true where the clauses and the trail before it are. -/
theorem Forced.trueUnder {clauses : Array StoredClause} {trail : Array Literal} {i : Nat}
    (h : Forced clauses trail i l)
    (hc : ∀ (key : Nat) (c : StoredClause), clauses[key]? = some c →
      Clause.satisfiedBy v c.literals = true)
    (ht : ∀ j < i, ∀ m, trail[j]? = some m → m.trueUnder v = true) : l.trueUnder v = true := by
  obtain ⟨key, c, hkey, -, hother⟩ := h
  obtain ⟨m, hm, hmt⟩ := Clause.satisfiedBy_iff.mp (hc key c hkey)
  by_cases hml : m = l
  · exact hml ▸ hmt
  · obtain ⟨j, hj, hjm⟩ := hother m hm hml
    have := ht j hj _ hjm
    rw [Literal.trueUnder_neg, hmt] at this
    cases this

/-- A valuation of the clauses that makes true the decisions below a position makes true all of the
trail below it. -/
theorem Represents.trail_true (h : Represents cs s) (hv : Clause.SatisfiedAll v cs) (n : Nat)
    (hd : ∀ level ∈ s.levels, level.start < n → level.decision.trueUnder v = true) :
    ∀ i < n, ∀ l, s.assignment.trail[i]? = some l → l.trueUnder v = true := by
  -- a literal is forced by those before it, so the induction is over all smaller positions
  intro i
  induction i using Nat.strongRecOn with
  | ind i ih =>
    intro hi l hl
    rcases h.justified i l hl with ⟨level, hlevel, rfl⟩ | ⟨-, c, hc, hcl⟩ | hforced
    · have hdec := h.wellFormed.decisions level hlevel
      rw [hl] at hdec
      cases hdec
      exact hd level hlevel hi
    · have hsat := hv c hc
      rw [← Clause.satisfiedBy_canonical, hcl] at hsat
      simpa [Clause.satisfiedBy] using hsat
    · exact hforced.trueUnder (h.sound v hv).2
        fun j hj m hm => ih j hj (Nat.lt_trans hj hi) m hm

theorem Represents.groundTrue (h : Represents cs s) (hv : Clause.SatisfiedAll v cs) :
    GroundTrue v s := by
  intro i l hl hground
  refine h.trail_true hv (i + 1) ?_ i (Nat.lt_succ_self i) l hl
  intro level hlevel hlt
  have := hground level hlevel
  omega

/-- What a state holds has exactly the valuations of the clauses given. -/
theorem Represents.satisfiedAll_iff (h : Represents cs s) :
    Clause.SatisfiedAll v cs ↔ s.inconsistent = false ∧ StoreTrue v s ∧ GroundTrue v s :=
  ⟨fun hv => ⟨(h.sound v hv).1, (h.sound v hv).2, h.groundTrue hv⟩,
    fun ⟨hi, hs, hg⟩ => h.complete v hi hs hg⟩

/-! ## A new search -/

theorem wellFormed_withSource (config : Config) (source : Random.Source) (n : Nat) :
    (withSource config source n).WellFormed where
  assignment := Assignment.consistent_new n
  store := by
    show (Store.new n).WellFormed (Assignment.new n).atomCount
    rw [Assignment.atomCount_new]
    exact Store.wellFormed_new n
  sorted := List.Pairwise.nil
  decisions level hlevel := by simp [withSource] at hlevel

theorem represents_withSource (config : Config) (source : Random.Source) (n : Nat) :
    Represents [] (withSource config source n) where
  wellFormed := wellFormed_withSource config source n
  justified i l hl := by simp [withSource, Assignment.new] at hl
  sound v _ := ⟨rfl, fun key c hc => by simp [withSource, Store.new] at hc⟩
  complete v _ _ _ c hc := by simp at hc

/-! ## Closing a level -/

/-- The state without its latest level. -/
def closed (s : Search) (level : Level) (below : List Level) : Search :=
  { s.unwind level.start with levels := below }

theorem getElem?_trail_closed (s : Search) (level : Level) (below : List Level) (i : Nat) :
    (s.closed level below).assignment.trail[i]?
      = if i < level.start then s.assignment.trail[i]? else none :=
  Assignment.getElem?_trail_unwind _ _ _

variable {level : Level} {below : List Level}

/-- The trail of a closed state is the part of the trail before the level. -/
theorem getElem?_of_closed {i : Nat}
    (h : (s.closed level below).assignment.trail[i]? = some l) :
    i < level.start ∧ s.assignment.trail[i]? = some l := by
  rw [getElem?_trail_closed] at h
  split at h
  · exact ⟨by assumption, h⟩
  · cases h

theorem WellFormed.closed (h : s.WellFormed) (hl : s.levels = level :: below) :
    (s.closed level below).WellFormed := by
  have hsorted := h.sorted
  rw [hl] at hsorted
  obtain ⟨hlevel, hbelow⟩ := List.pairwise_cons.mp hsorted
  refine ⟨h.assignment.unwind _, ?_, hbelow, ?_⟩
  · show s.store.WellFormed (s.assignment.unwind level.start).atomCount
    rw [Assignment.atomCount_unwind]
    exact h.store
  · intro b hb
    rw [getElem?_trail_closed, if_pos (hlevel b hb)]
    exact h.decisions b (hl ▸ List.mem_cons_of_mem _ hb)

/-- What is left of the trail is ground when it was before. -/
theorem ground_closed {i : Nat} (hl : s.levels = level :: below) (hi : i < level.start) :
    (s.closed level below).Ground i ↔ s.Ground i := by
  unfold Ground
  rw [hl]
  simp only [List.forall_mem_cons]
  exact ⟨fun h => ⟨hi, h⟩, fun h => h.2⟩

theorem Justified.closed {i : Nat} (h : Justified cs s i l) (hl : s.levels = level :: below)
    (hi : i < level.start) : Justified cs (s.closed level below) i l := by
  refine h.imp ?_ (ground_closed hl hi).mpr (fun _ hc => hc) ?_
  -- the level closed starts too late to be the one that starts here
  · intro b hb hstart
    rw [hl] at hb
    rcases List.mem_cons.mp hb with rfl | hb
    · omega
    · exact hb
  · intro hforced
    apply hforced.of_trail
    intro j hj
    rw [getElem?_trail_closed, if_pos (Nat.lt_trans hj hi)]

theorem Represents.closed (h : Represents cs s) (hl : s.levels = level :: below) :
    Represents cs (s.closed level below) := by
  have hw := h.wellFormed.closed hl
  refine ⟨hw, ?_, h.sound, ?_⟩
  · intro i l hi
    obtain ⟨hlt, hi⟩ := getElem?_of_closed hi
    exact (h.justified i l hi).closed hl hlt
  -- what is ground lies below the level closed, so nothing ground is lost
  · intro v hi hs hg
    apply h.complete v hi hs
    intro i l hl' hground
    have hlt : i < level.start := hground level (by simp [hl])
    refine hg i l ?_ ((ground_closed hl hlt).mpr hground)
    rw [getElem?_trail_closed, if_pos hlt, hl']

theorem closeLevels_cons (n : Nat) (hl : s.levels = level :: below) :
    closeLevels (n + 1) s = closeLevels n (s.closed level below) := by
  rw [closeLevels]
  simp only [hl]
  rfl

theorem closeLevels_of_levels_eq_nil (n : Nat) (hl : s.levels = []) : closeLevels n s = s := by
  cases n with
  | zero => rfl
  | succ n =>
    rw [closeLevels]
    simp only [hl]

/-- What closing a level keeps, closing several does. -/
theorem closeLevels_induction {P : Search → Prop}
    (hP : ∀ s level below, P s → s.levels = level :: below → P (s.closed level below)) (n : Nat)
    {s : Search} (h : P s) : P (closeLevels n s) := by
  induction n generalizing s with
  | zero => exact h
  | succ n ih =>
    cases hl : s.levels with
    | nil => rwa [closeLevels_of_levels_eq_nil _ hl]
    | cons level below =>
      rw [closeLevels_cons n hl]
      exact ih (hP s level below h hl)

theorem levels_closeLevels (n : Nat) (s : Search) :
    (closeLevels n s).levels = s.levels.drop n := by
  induction n generalizing s with
  | zero => rfl
  | succ n ih =>
    cases hl : s.levels with
    | nil => rw [closeLevels_of_levels_eq_nil _ hl, hl, List.drop_nil]
    | cons level below =>
      rw [closeLevels_cons n hl, ih]
      rfl

theorem WellFormed.closeLevels (h : s.WellFormed) (n : Nat) : (closeLevels n s).WellFormed :=
  closeLevels_induction (fun _ _ _ h hl => h.closed hl) n h

theorem Represents.closeLevels (h : Represents cs s) (n : Nat) :
    Represents cs (Search.closeLevels n s) :=
  closeLevels_induction (fun _ _ _ h hl => h.closed hl) n h

theorem Represents.backjump (h : Represents cs s) (target : Nat) :
    Represents cs (s.backjump target) :=
  (h.closeLevels (s.level - target)).of_eq rfl rfl rfl rfl

theorem levels_backjump_zero (s : Search) : (s.backjump 0).levels = [] := by
  show (closeLevels (s.level - 0) s).levels = []
  rw [levels_closeLevels]
  exact List.drop_of_length_le (Nat.le_refl _)

/-! ## Opening a level -/

variable {flipped : Bool}

theorem trail_openLevel (ho : s.assignment.IsOpen l.atom) :
    (s.openLevel l flipped).assignment.trail = s.assignment.trail.push l :=
  Assignment.trail_assign ho

/-- The trail below a level just opened is what it was. -/
theorem getElem?_openLevel (ho : s.assignment.IsOpen l.atom) {i : Nat}
    (hi : i < s.assignment.trail.size) :
    (s.openLevel l flipped).assignment.trail[i]? = s.assignment.trail[i]? :=
  Assignment.getElem?_trail_assign ho hi

theorem WellFormed.openLevel (h : s.WellFormed) (ho : s.assignment.IsOpen l.atom)
    (hl : l.atom ≠ 0) (flipped : Bool) : (s.openLevel l flipped).WellFormed := by
  have hstart : ∀ level ∈ s.levels, level.start < s.assignment.trail.size := fun level hlevel =>
    (Array.getElem?_eq_some_iff.mp (h.decisions level hlevel)).1
  refine ⟨h.assignment.assign ho hl, h.store_assign l,
    List.pairwise_cons.mpr ⟨hstart, h.sorted⟩, ?_⟩
  intro level hlevel
  rcases List.mem_cons.mp hlevel with rfl | hlevel
  · rw [trail_openLevel ho]
    simp
  · rw [getElem?_openLevel ho (hstart level hlevel)]
    exact h.decisions level hlevel

theorem ground_openLevel {i : Nat} (hi : i < s.assignment.trail.size) :
    (s.openLevel l flipped).Ground i ↔ s.Ground i := by
  unfold Ground openLevel assign
  simp only [List.forall_mem_cons]
  exact ⟨fun h => h.2, fun h => ⟨hi, h⟩⟩

/-- With a level opened the literals before it are justified as before, and the only new literal is
the decision. -/
theorem justified_openLevel {i : Nat} {m : Literal} (ho : s.assignment.IsOpen l.atom)
    (h : ∀ m, s.assignment.trail[i]? = some m → Justified cs s i m)
    (hm : (s.openLevel l flipped).assignment.trail[i]? = some m) :
    Justified cs (s.openLevel l flipped) i m := by
  rcases Nat.lt_or_ge i s.assignment.trail.size with hlt | hge
  · rw [getElem?_openLevel ho hlt] at hm
    apply (h m hm).imp
    · intro level hlevel _
      exact List.mem_cons_of_mem _ hlevel
    · exact (ground_openLevel hlt).mpr
    · exact fun _ hc => hc
    · intro hforced
      exact hforced.of_trail fun j hj => getElem?_openLevel ho (Nat.lt_trans hj hlt)
  · obtain ⟨hi, -⟩ := Assignment.eq_of_getElem?_trail_assign ho hge hm
    exact .inl ⟨_, List.mem_cons_self, hi.symm⟩

theorem Represents.openLevel (h : Represents cs s) (ho : s.assignment.IsOpen l.atom)
    (hl : l.atom ≠ 0) (flipped : Bool) : Represents cs (s.openLevel l flipped) := by
  refine ⟨h.wellFormed.openLevel ho hl flipped,
    fun i m hm => justified_openLevel ho (h.justified i) hm, h.sound, ?_⟩
  intro v hi hs hg
  apply h.complete v hi hs
  intro i m hm hground
  have hlt := (Array.getElem?_eq_some_iff.mp hm).1
  exact hg i m ((getElem?_openLevel ho hlt).trans hm) ((ground_openLevel hlt).mpr hground)

/-! ## Propagation -/

theorem propagate_of_end (h : s.assignment.trail[s.head]? = none) : s.propagate = (none, s) := by
  rw [propagate]
  split
  · rfl
  · rename_i hl
    cases h.symm.trans hl

theorem propagate_of_conflict {l : Literal} {key : Nat} (h : s.assignment.trail[s.head]? = some l)
    (ht : s.propagateLiteral l = (some key, t)) : s.propagate = (some key, t) := by
  rw [propagate]
  split
  · rename_i hl
    cases h.symm.trans hl
  · rename_i hl
    cases h.symm.trans hl
    split
    · rename_i ht'
      exact ht'.symm.trans ht
    · rename_i ht'
      cases ht.symm.trans ht'

theorem propagate_of_next {l : Literal} (h : s.assignment.trail[s.head]? = some l)
    (ht : s.propagateLiteral l = (none, t)) :
    s.propagate = propagate { t with head := t.head + 1 } := by
  rw [propagate]
  split
  · rename_i hl
    cases h.symm.trans hl
  · rename_i hl
    cases h.symm.trans hl
    split
    · rename_i ht'
      cases ht.symm.trans ht'
    · rename_i ht'
      cases ht.symm.trans ht'
      rfl

/-- What propagation does to a state: it makes the trail longer, by literals that stored clauses
force, and permutes the literals of stored clauses. -/
structure Extends (s t : Search) : Prop where
  trail : s.assignment.trail.toList <+: t.assignment.trail.toList
  clauses : Rearranged s.store.clauses t.store.clauses
  forced : ∀ i l, s.assignment.trail.size ≤ i → t.assignment.trail[i]? = some l →
    Forced t.store.clauses t.assignment.trail i l
  levels : t.levels = s.levels
  inconsistent : t.inconsistent = s.inconsistent

namespace Extends

theorem refl (s : Search) : Extends s s where
  trail := List.prefix_refl _
  clauses := Pointwise.refl (fun _ => List.Perm.refl _) _
  forced i l hi hl := by
    have := (Array.getElem?_eq_some_iff.mp hl).1
    omega
  levels := rfl
  inconsistent := rfl

theorem trans {u : Search} (h : Extends s t) (h' : Extends t u) : Extends s u where
  trail := h.trail.trans h'.trail
  clauses := h.clauses.trans h'.clauses
  forced i l hi hl := by
    rcases Nat.lt_or_ge i t.assignment.trail.size with hlt | hge
    · have hbefore : ∀ j < t.assignment.trail.size,
          u.assignment.trail[j]? = t.assignment.trail[j]? :=
        fun j hj => Assignment.getElem?_eq_of_isPrefix h'.trail hj
      rw [hbefore i hlt] at hl
      exact ((h.forced i l hi hl).rearranged h'.clauses).of_trail
        fun j hj => hbefore j (Nat.lt_trans hj hlt)
    · exact h'.forced i l hge hl
  levels := h'.levels.trans h.levels
  inconsistent := h'.inconsistent.trans h.inconsistent

theorem storeTrue (h : Extends s t) : StoreTrue v t ↔ StoreTrue v s := by
  constructor
  · intro ht key c hc
    obtain ⟨d, hd, hp⟩ := h.clauses.to_right hc
    rw [← Clause.satisfiedBy_perm hp]
    exact ht key d hd
  · intro hs key d hd
    obtain ⟨c, hc, hp⟩ := h.clauses.to_left hd
    rw [Clause.satisfiedBy_perm hp]
    exact hs key c hc

theorem ground (h : Extends s t) (i : Nat) : t.Ground i ↔ s.Ground i := by
  unfold Ground
  rw [h.levels]

end Extends

/-- Propagation leaves justified what was, and what it adds is forced. -/
theorem Extends.justified {i : Nat} (he : Extends s t)
    (h : ∀ l, s.assignment.trail[i]? = some l → Justified cs s i l)
    (hl : t.assignment.trail[i]? = some l) : Justified cs t i l := by
  rcases Nat.lt_or_ge i s.assignment.trail.size with hlt | hge
  · have hbefore : ∀ j < s.assignment.trail.size,
        t.assignment.trail[j]? = s.assignment.trail[j]? :=
      fun j hj => Assignment.getElem?_eq_of_isPrefix he.trail hj
    rw [hbefore i hlt] at hl
    apply (h l hl).imp
    · intro level hlevel _
      rw [he.levels]
      exact hlevel
    · exact (he.ground i).mpr
    · exact fun _ hc => hc
    · intro hforced
      exact (hforced.rearranged he.clauses).of_trail fun j hj => hbefore j (Nat.lt_trans hj hlt)
  · exact .inr (.inr (he.forced i l hge hl))

theorem Represents.of_extends (h : Represents cs s) (hw : t.WellFormed) (he : Extends s t) :
    Represents cs t := by
  refine ⟨hw, fun i l hl => he.justified (h.justified i) hl, ?_, ?_⟩
  · intro v hv
    rw [he.inconsistent, he.storeTrue]
    exact h.sound v hv
  · intro v hi hs hg
    rw [he.inconsistent] at hi
    apply h.complete v hi (he.storeTrue.mp hs)
    intro i l hl hground
    exact hg i l (Assignment.getElem?_of_isPrefix he.trail hl) ((he.ground i).mpr hground)

/-- The visit that propagates a literal, from its start to its end. -/
theorem visiting_propagateLiteral (h : s.WellFormed) (l : Literal) :
    ∃ kept pending, Visiting (-l) s.assignment s.store (s.propagateLiteral l).2.assignment
        (visit (-l) s.assignment s.store [] (s.store.watchersOf (-l))).store kept pending ∧
      (visit (-l) s.assignment s.store [] (s.store.watchersOf (-l))).watchers
        = kept.reverse ++ pending ∧
      match (s.propagateLiteral l).1 with
      | none => pending = []
      | some key => l ∈ s.assignment.trail →
          ∃ c, (s.propagateLiteral l).2.store.clauses[key]? = some c ∧
            IsFalse (s.propagateLiteral l).2.assignment c := by
  have hv := visiting_visit (Visiting.start h.assignment h.store (-l))
  rw [Literal.neg_neg] at hv
  exact hv

theorem WellFormed.propagateLiteral (h : s.WellFormed) (l : Literal) :
    (s.propagateLiteral l).2.WellFormed := by
  obtain ⟨kept, pending, hv, hwatchers, -⟩ := visiting_propagateLiteral h l
  refine ⟨hv.consistent, ⟨?_, fun key c hc => hv.proper hc, ?_⟩, h.sorted, ?_⟩
  · have hsize := hv.size_watchers.trans h.store.size_watchers
    rw [hv.atomCount]
    simpa [Search.propagateLiteral, Store.setWatchers] using hsize
  · apply hv.mirrors.congr
    intro m
    show (Store.watchersOf (Store.setWatchers _ (-l) _) m).Perm _
    rw [Store.watchersOf_setWatchers, hwatchers]
    by_cases hm : m = -l
    · subst hm
      split
      · simp
      -- out of range there is no list, and no clause that watches the literal
      · rename_i hslot
        rw [if_pos rfl]
        have hempty : kept.reverse ++ pending = [] := by
          rw [List.eq_nil_iff_forall_not_mem]
          intro key hkey
          obtain ⟨c, hc, hw⟩ := (hv.mirrors.mem (-l) key).mp (by simpa using hkey)
          refine hslot ⟨rfl, ?_⟩
          rw [hv.size_watchers, h.store.size_watchers, ← hv.atomCount]
          exact Store.slot_lt ((hv.proper hc).range _ hw.mem).2
        rw [hempty, Store.watchersOf_eq_nil fun hlt => hslot ⟨rfl, hlt⟩]
    · simp [hm]
  · intro level hlevel
    exact Assignment.getElem?_of_isPrefix hv.trail (h.decisions level hlevel)

theorem extends_propagateLiteral (h : s.WellFormed) (hl : l ∈ s.assignment.trail) :
    Extends s (s.propagateLiteral l).2 := by
  obtain ⟨kept, pending, hv, -, -⟩ := visiting_propagateLiteral h l
  refine ⟨hv.trail, hv.rearranged, ?_, rfl, rfl⟩
  exact hv.forced (by rwa [Literal.neg_neg])

theorem Represents.propagateLiteral (h : Represents cs s) (hl : l ∈ s.assignment.trail) :
    Represents cs (s.propagateLiteral l).2 :=
  h.of_extends (h.wellFormed.propagateLiteral l) (extends_propagateLiteral h.wellFormed hl)

-- Both at once, since the trail grows on the way and what is propagated next depends on it.
theorem wellFormed_extends_propagate (h : s.WellFormed) :
    s.propagate.2.WellFormed ∧ Extends s s.propagate.2 := by
  fun_induction propagate s with
  | case1 s => exact ⟨h, Extends.refl s⟩
  | case2 s l hl key t ht =>
    have hmem := Array.mem_of_getElem? hl
    have hw := h.propagateLiteral l
    have he := extends_propagateLiteral h hmem
    rw [ht] at hw he
    exact ⟨hw, he⟩
  | case3 s l hl t ht ih =>
    have hmem := Array.mem_of_getElem? hl
    have hw := h.propagateLiteral l
    have he := extends_propagateLiteral h hmem
    rw [ht] at hw he
    obtain ⟨hw', he'⟩ := ih (hw.of_eq rfl rfl rfl)
    exact ⟨hw', he.trans ⟨he'.trail, he'.clauses, he'.forced, he'.levels, he'.inconsistent⟩⟩

theorem Represents.propagate (h : Represents cs s) : Represents cs s.propagate.2 :=
  h.of_extends (wellFormed_extends_propagate h.wellFormed).1
    (wellFormed_extends_propagate h.wellFormed).2

end Clausal.Search
