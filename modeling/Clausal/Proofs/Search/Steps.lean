import Clausal.Proofs.Search.State
import Clausal.Search.AddClause
import Clausal.Search.Branch

/-!
# Steps of a search

Backtracking, deciding and adding a clause keep a state standing for the clauses it was given, the
clause added being one more of them. Each step is first told apart into what it can do.
-/

namespace Clausal.Search

variable {s t : Search} {cs : List Clause} {c : Clause} {l : Literal}

/-! ## Backtracking -/

/-- The state with its latest level turned round. -/
def turned (s : Search) (level : Level) (below : List Level) : Search :=
  { s.closed level below with
    head := (s.closed level below).assignment.trail.size }.openLevel (-level.decision) true

/-- What backtracking can do, with the state it ends in. -/
inductive Backtracked (s : Search) : Bool → Search → Prop
  /-- The latest level that has not been turned round is turned round. -/
  | turned {above below : List Level} {level : Level} (hl : s.levels = above ++ level :: below)
      (habove : ∀ a ∈ above, a.flipped = true) (hlevel : level.flipped = false) :
      Backtracked s true ((closeLevels above.length s).turned level below)
  /-- There is none, and all levels are closed. -/
  | exhausted (hall : ∀ a ∈ s.levels, a.flipped = true) :
      Backtracked s false (closeLevels s.level s).clampHead

theorem Backtracked.of_flipped {level : Level} {below : List Level} {turned : Bool}
    (h : Backtracked (s.closed level below) turned t) (hl : s.levels = level :: below)
    (hf : level.flipped = true) : Backtracked s turned t := by
  cases h with
  | @turned above below' level' hl' habove hlevel =>
    have hlevels : s.levels = (level :: above) ++ level' :: below' := by
      rw [hl, show below = above ++ level' :: below' from hl']
      rfl
    rw [← closeLevels_cons above.length hl]
    apply Backtracked.turned hlevels _ hlevel
    intro a ha
    rcases List.mem_cons.mp ha with rfl | ha
    · exact hf
    · exact habove a ha
  | exhausted hall =>
    have hlevel : s.level = below.length + 1 := by rw [Search.level, hl, List.length_cons]
    show Backtracked s false (closeLevels below.length (s.closed level below)).clampHead
    rw [← closeLevels_cons below.length hl, ← hlevel]
    apply Backtracked.exhausted
    intro a ha
    rw [hl] at ha
    rcases List.mem_cons.mp ha with rfl | ha
    · exact hf
    · exact hall a ha

theorem backtrackThrough_spec (levels : List Level) (s : Search) :
    Backtracked { s with levels } (backtrackThrough levels s).1 (backtrackThrough levels s).2 := by
  induction levels generalizing s with
  | nil => exact .exhausted (by simp)
  | cons level below ih =>
    rw [backtrackThrough]
    cases hf : level.flipped with
    | false =>
      have hl : { s with levels := level :: below }.levels = [] ++ level :: below := rfl
      exact .turned hl (by simp) hf
    | true =>
      exact Backtracked.of_flipped (s := { s with levels := level :: below })
        (ih (s.unwind level.start)) rfl hf

theorem backtrack_spec (s : Search) : Backtracked s s.backtrack.1 s.backtrack.2 :=
  backtrackThrough_spec s.levels s

theorem levels_closeLevels_append {above below : List Level} {level : Level}
    (hl : s.levels = above ++ level :: below) :
    (closeLevels above.length s).levels = level :: below := by
  rw [levels_closeLevels, hl, List.drop_left]

/-- The decision of a level is open once the level is closed. -/
theorem WellFormed.isOpen_closed (h : s.WellFormed) {level : Level} {below : List Level}
    (hl : s.levels = level :: below) :
    (s.closed level below).assignment.IsOpen level.decision.atom ∧ level.decision.atom ≠ 0 := by
  have hd := h.decisions level (by simp [hl])
  have hr := h.assignment.range_of_mem (Array.mem_of_getElem? hd)
  exact ⟨h.assignment.isOpen_unwind (Nat.le_refl _) hd, by omega⟩

theorem Represents.turned (h : Represents cs s) {level : Level} {below : List Level}
    (hl : s.levels = level :: below) : Represents cs (s.turned level below) := by
  obtain ⟨ho, h0⟩ := h.wellFormed.isOpen_closed hl
  rw [← Literal.atom_neg] at ho h0
  have hclosed : Represents cs { s.closed level below with
      head := (s.closed level below).assignment.trail.size } :=
    (h.closed hl).of_eq rfl rfl rfl rfl
  exact hclosed.openLevel ho h0 true

theorem Represents.backtracked {turned : Bool} (h : Represents cs s)
    (hb : Backtracked s turned t) : Represents cs t := by
  cases hb with
  | @turned above below level hl habove hlevel =>
    exact (h.closeLevels above.length).turned (levels_closeLevels_append hl)
  | exhausted hall => exact (h.closeLevels s.level).of_eq rfl rfl rfl rfl

theorem Represents.backtrack (h : Represents cs s) : Represents cs s.backtrack.2 :=
  h.backtracked (backtrack_spec s)

/-! ## Deciding -/

theorem drawBelow_lt {n : Nat} (hn : 0 < n) (patience : Nat) (source : Random.Source) :
    (source.drawBelow n patience).1 < n := by
  have hw : ∀ source : Random.Source, source.draw32.1 * n / Random.wordCount < n := by
    intro source
    have hlt : source.draw32.1 < Random.wordCount := UInt32.toNat_lt _
    exact Nat.div_lt_of_lt_mul (Nat.mul_lt_mul_of_pos_right hlt hn)
  induction patience generalizing source with
  | zero => exact hw source
  | succ patience ih =>
    unfold Random.Source.drawBelow
    simp only
    split
    · exact hw source
    · exact ih _

/-- What may be chosen from a list: a member, or nothing from the empty one. -/
def IsChoice {α : Type} (xs : List α) : Option α → Prop
  | none => xs = []
  | some x => x ∈ xs

theorem isChoice_choose? {α : Type} (xs : List α) (source : Random.Source) :
    IsChoice xs (source.choose? xs).1 := by
  unfold Random.Source.choose?
  cases xs with
  | nil => rfl
  | cons x xs =>
    have hlt := drawBelow_lt (n := (x :: xs).length) (by simp) 4096 source
    simp only [List.isEmpty_cons, Bool.false_eq_true, ↓reduceIte]
    rw [List.getElem?_eq_getElem hlt]
    exact List.getElem_mem hlt

theorem isChoice_firstOpen? (a : Assignment) : IsChoice a.openAtoms a.firstOpen? := by
  rw [Assignment.firstOpen?_eq_head?]
  cases a.openAtoms with
  | nil => rfl
  | cons index rest => exact List.mem_cons_self

theorem isChoice_chooseAtom (s : Search) : IsChoice s.assignment.openAtoms s.chooseAtom.1 := by
  unfold chooseAtom
  simp only
  by_cases hbias : Binary64.zero < s.config.decisionBias.value
  · rw [if_pos hbias]
    by_cases hdraw : (s.source.drawBool s.config.decisionBias.value).1 = true
    · rw [if_pos hdraw]
      exact isChoice_choose? _ _
    · rw [if_neg hdraw]
      exact isChoice_firstOpen? _
  · rw [if_neg hbias]
    exact isChoice_firstOpen? _

theorem isOpen_of_mem_openAtoms {a : Assignment} (ha : a.Consistent) {index : Nat}
    (h : index ∈ a.openAtoms) : a.IsOpen index ∧ index ≠ 0 := by
  simp only [Assignment.openAtoms, List.mem_filter, List.mem_range'_1] at h
  have := Assignment.atomCount_eq ha
  rw [Assignment.isOpen_iff]
  refine ⟨⟨by omega, ?_⟩, by omega⟩
  simpa using h.2

/-- What deciding can do, with the state it ends in. -/
inductive Branched (s : Search) : Option Literal → Search → Prop
  /-- A level is opened with a literal of an open atom. -/
  | opened {l : Literal} {source : Random.Source} {counters : Counters}
      (ho : s.assignment.IsOpen l.atom) (h0 : l.atom ≠ 0) :
      Branched s (some l) ({ s with source, counters }.openLevel l false)
  /-- No atom is open. -/
  | complete {source : Random.Source} (hopen : s.assignment.openAtoms = []) :
      Branched s none { s with source }

theorem branch_spec (h : s.WellFormed) : Branched s s.branch.1 s.branch.2 := by
  have hchoice := isChoice_chooseAtom s
  unfold branch
  split
  · rename_i source heq
    rw [heq] at hchoice
    exact .complete hchoice
  · rename_i index source heq
    rw [heq] at hchoice
    obtain ⟨ho, h0⟩ := isOpen_of_mem_openAtoms h.assignment hchoice
    exact .opened ho h0

theorem Represents.branched {l? : Option Literal} (h : Represents cs s)
    (hb : Branched s l? t) : Represents cs t := by
  cases hb with
  | @opened l source counters ho h0 =>
    have hdrawn : Represents cs { s with source, counters } := h.of_eq rfl rfl rfl rfl
    exact hdrawn.openLevel ho h0 false
  | complete hopen => exact h.of_eq rfl rfl rfl rfl

theorem Represents.branch (h : Represents cs s) : Represents cs s.branch.2 :=
  h.branched (branch_spec h.wellFormed)

/-! ## Adding a clause -/

theorem WellFormed.grow (h : s.WellFormed) (index : Nat) : (s.grow index).WellFormed where
  assignment := h.assignment.grow index
  store := by
    show (s.store.grow index).WellFormed (s.assignment.grow index).atomCount
    rw [Assignment.atomCount_grow h.assignment]
    exact h.store.grow index
  sorted := h.sorted
  decisions := h.decisions

theorem Represents.grow (h : Represents cs s) (index : Nat) : Represents cs (s.grow index) :=
  ⟨h.wellFormed.grow index, h.justified, h.sound, h.complete⟩

theorem Justified.append {i : Nat} (h : Justified cs s i l) : Justified (cs ++ [c]) s i l :=
  h.imp (fun _ hlevel _ => hlevel) id (fun _ => List.mem_append_left _) id

theorem satisfiedAll_concat {v : Nat → Bool} :
    Clause.SatisfiedAll v (cs ++ [c]) ↔ Clause.SatisfiedAll v cs ∧ c.satisfiedBy v = true := by
  rw [Clause.satisfiedAll_append]
  simp [Clause.SatisfiedAll]

/-- A clause that follows from the others may be given without further ado. -/
theorem Represents.append_of_entailed (h : Represents cs s)
    (hc : ∀ v, Clause.SatisfiedAll v cs → c.satisfiedBy v = true) :
    Represents (cs ++ [c]) s where
  wellFormed := h.wellFormed
  justified i l hl := (h.justified i l hl).append
  sound v hv := h.sound v (satisfiedAll_concat.mp hv).1
  complete v hi hs hg := by
    have hcs := h.complete v hi hs hg
    exact satisfiedAll_concat.mpr ⟨hcs, hc v hcs⟩

/-- A clause that contradicts the others makes the state inconsistent. -/
theorem Represents.append_contradict (h : Represents cs s)
    (hc : ∀ v, Clause.SatisfiedAll v cs → c.satisfiedBy v = false) :
    Represents (cs ++ [c]) s.contradict.2 where
  wellFormed := h.wellFormed.of_eq rfl rfl rfl
  justified i l hl := (h.justified i l hl).append
  sound v hv := by
    obtain ⟨hcs, hcv⟩ := satisfiedAll_concat.mp hv
    rw [hc v hcs] at hcv
    cases hcv
  complete v hi := by simp [contradict] at hi

/-- With no level open the whole trail is ground. -/
theorem ground_of_levels_eq_nil (hl : s.levels = []) (i : Nat) : s.Ground i := by
  unfold Ground
  simp [hl]

theorem Represents.mem_trail_true (h : Represents cs s) (hlevels : s.levels = [])
    (hl : l ∈ s.assignment.trail) {v : Nat → Bool} (hv : Clause.SatisfiedAll v cs) :
    l.trueUnder v = true := by
  obtain ⟨i, hi⟩ := Array.mem_iff_getElem?.mp hl
  exact h.groundTrue hv i l hi (ground_of_levels_eq_nil hlevels i)

theorem satisfiedBy_of_canonical_eq_singleton (hc : c.canonical = [l]) (v : Nat → Bool) :
    c.satisfiedBy v = l.trueUnder v := by
  rw [← Clause.satisfiedBy_canonical, hc]
  simp [Clause.satisfiedBy]

theorem WellFormed.assign (h : s.WellFormed) (hlevels : s.levels = [])
    (ho : s.assignment.IsOpen l.atom) (h0 : l.atom ≠ 0) : (s.assign l).WellFormed where
  assignment := h.assignment.assign ho h0
  store := h.store_assign l
  sorted := h.sorted
  decisions level hlevel := by
    have hlevel : level ∈ s.levels := hlevel
    rw [hlevels] at hlevel
    cases hlevel

/-- A clause with one literal is kept on the trail. -/
theorem Represents.assign (h : Represents cs s) (hlevels : s.levels = [])
    (hc : c.canonical = [l]) (ho : s.assignment.IsOpen l.atom) (h0 : l.atom ≠ 0) :
    Represents (cs ++ [c]) (s.assign l) := by
  have hground : ∀ i, (s.assign l).Ground i := ground_of_levels_eq_nil hlevels
  have hbefore : ∀ i < s.assignment.trail.size,
      (s.assignment.assign l).trail[i]? = s.assignment.trail[i]? :=
    fun i hi => Assignment.getElem?_trail_assign ho hi
  refine ⟨h.wellFormed.assign hlevels ho h0, ?_, ?_, ?_⟩
  · intro i m hm
    have hm : (s.assignment.assign l).trail[i]? = some m := hm
    rcases Nat.lt_or_ge i s.assignment.trail.size with hlt | hge
    · rw [hbefore i hlt] at hm
      apply (h.justified i m hm).imp
      · exact fun level hlevel _ => hlevel
      · exact fun _ => hground i
      · exact fun d hd => List.mem_append_left _ hd
      · intro hforced
        exact hforced.of_trail fun j hj => hbefore j (Nat.lt_trans hj hlt)
    -- the new literal is the clause itself
    · obtain ⟨-, rfl⟩ := Assignment.eq_of_getElem?_trail_assign ho hge hm
      exact .inr (.inl ⟨hground i, c, by simp, hc⟩)
  · intro v hv
    exact h.sound v (satisfiedAll_concat.mp hv).1
  -- the whole trail is ground, the new literal and what was there before
  · intro v hi hs hg
    refine satisfiedAll_concat.mpr ⟨h.complete v hi hs ?_, ?_⟩
    · intro i m hm _
      have hlt := (Array.getElem?_eq_some_iff.mp hm).1
      exact hg i m ((hbefore i hlt).trans hm) (hground i)
    · rw [satisfiedBy_of_canonical_eq_singleton hc]
      refine hg s.assignment.trail.size l ?_ (hground _)
      show (s.assignment.assign l).trail[_]? = some l
      rw [Assignment.trail_assign ho]
      simp

theorem Represents.addUnit (h : Represents cs s) (hlevels : s.levels = [])
    (hc : c.canonical = [l]) (hr : 0 < l.atom ∧ l.atom ≤ s.assignment.atomCount) :
    Represents (cs ++ [c]) (s.addUnit l).2 := by
  have ha := h.wellFormed.assignment
  unfold Search.addUnit
  split
  · rename_i hv
    apply h.append_of_entailed
    intro v hvs
    rw [satisfiedBy_of_canonical_eq_singleton hc]
    exact h.mem_trail_true hlevels (ha.valueOf_true.mp hv) hvs
  · rename_i hv
    apply h.append_contradict
    intro v hvs
    have hneg := h.mem_trail_true hlevels (ha.valueOf_false.mp hv) hvs
    rw [satisfiedBy_of_canonical_eq_singleton hc]
    rw [Literal.trueUnder_neg] at hneg
    simpa using hneg
  · rename_i hv
    have hopen : s.assignment.IsOpen l.atom := by
      rw [Assignment.isOpen_iff, Assignment.atomCount_eq ha]
      exact ⟨by omega, Assignment.valueOf_eq_none_iff.mp hv⟩
    exact h.assign hlevels hc hopen (by omega)

/-! ### Storing -/

theorem perm_falseLast (a : Assignment) (c : Clause) : (falseLast a c).Perm c := by
  have hnot : (fun l => a.valueOf l == some false) = fun l => !(a.valueOf l != some false) :=
    funext fun _ => (Bool.not_not _).symm
  unfold falseLast
  rw [hnot]
  exact List.filter_append_perm _ c

theorem getElem?_of_push {cs : Array StoredClause} {key : Nat} {c d : StoredClause}
    (h : cs[key]? = some c) : (cs.push d)[key]? = some c := by
  have hlt := (Array.getElem?_eq_some_iff.mp h).1
  rw [Array.getElem?_push, if_neg (Nat.ne_of_lt hlt), h]

theorem Represents.store (h : Represents cs s) {d : StoredClause} (hd : d.literals.Perm c.canonical)
    (hp : d.literals.Proper s.assignment.atomCount) :
    Represents (cs ++ [c]) { s with store := s.store.add d } := by
  have hw := h.wellFormed
  have hsat : ∀ v, Clause.satisfiedBy v d.literals = c.satisfiedBy v := fun v => by
    rw [Clause.satisfiedBy_perm hd, Clause.satisfiedBy_canonical]
  refine ⟨⟨hw.assignment, hw.store.add hp, hw.sorted, hw.decisions⟩, ?_, ?_, ?_⟩
  · intro i l hl
    apply (h.justified i l hl).imp
    · exact fun level hlevel _ => hlevel
    · exact id
    · exact fun e he => List.mem_append_left _ he
    · intro hforced
      obtain ⟨key, e, he, hle, hother⟩ := hforced
      exact ⟨key, e, getElem?_of_push he, hle, hother⟩
  · intro v hv
    obtain ⟨hcs, hcv⟩ := satisfiedAll_concat.mp hv
    obtain ⟨hi, hs⟩ := h.sound v hcs
    refine ⟨hi, fun key e he => ?_⟩
    rw [Store.clauses_add, Array.getElem?_push] at he
    split at he
    · cases he
      rw [hsat, hcv]
    · exact hs key e he
  · intro v hi hs hg
    refine satisfiedAll_concat.mpr ⟨h.complete v hi (fun key e he => ?_) hg, ?_⟩
    · exact hs key e (getElem?_of_push he)
    · rw [← hsat]
      refine hs s.store.clauses.size d ?_
      rw [Store.clauses_add]
      simp

theorem Represents.addCanonical (h : Represents cs s) (hlevels : s.levels = [])
    (hp : c.canonical.Proper s.assignment.atomCount) :
    Represents (cs ++ [c]) (s.addCanonical c.canonical).2 := by
  have hperm := perm_falseLast s.assignment c.canonical
  unfold Search.addCanonical
  split
  · rename_i heq
    rw [heq, List.nil_perm] at hperm
    apply h.append_contradict
    intro v _
    rw [← Clause.satisfiedBy_canonical, hperm]
    rfl
  · rename_i l heq
    rw [heq, List.singleton_perm] at hperm
    exact h.addUnit hlevels hperm.symm (hp.range l (by simp [hperm.symm]))
  · rename_i first second rest heq
    rw [heq] at hperm
    exact h.store hperm (hp.perm hperm)

/-- The clause is refused for a zero in it. -/
def HasZero (c : Clause) : Prop := ∃ l ∈ c, l.atom = 0

instance (c : Clause) : Decidable (HasZero c) := inferInstanceAs (Decidable (∃ l ∈ c, l.atom = 0))

theorem addClause_of_hasZero (h : HasZero c) : s.addClause c = (.error .zeroLiteral, s) := by
  have hany : (c.any fun l => l.atom == 0) = true := by
    obtain ⟨l, hl, h0⟩ := h
    exact List.any_eq_true.mpr ⟨l, hl, by simp [h0]⟩
  unfold addClause
  rw [if_pos hany]

/-- What adding a clause without zeros does once all levels are closed. -/
theorem addClause_of_not_hasZero (h : ¬ HasZero c) :
    s.addClause c = if c.canonical.hasComplement then (.ok (), s.backjump 0)
      else ((s.backjump 0).grow c.canonical.maxAtom).addCanonical c.canonical := by
  have hany : ¬ (c.any fun l => l.atom == 0) = true := by
    intro hany
    obtain ⟨l, hl, h0⟩ := List.any_eq_true.mp hany
    exact h ⟨l, hl, by simpa using h0⟩
  unfold addClause
  rw [if_neg hany]

theorem Represents.addClause (h : Represents cs s) (hz : ¬ HasZero c) :
    Represents (cs ++ [c]) (s.addClause c).2 := by
  have hback := h.backjump 0
  have hlevels := levels_backjump_zero s
  rw [addClause_of_not_hasZero hz]
  split
  · rename_i ht
    apply hback.append_of_entailed
    intro v _
    rw [← Clause.satisfiedBy_canonical]
    exact Clause.satisfiedBy_of_hasComplement v ht
  · rename_i ht
    refine (hback.grow _).addCanonical hlevels ?_
    have hp := Clause.proper_canonical (by simpa using ht) fun l hl h0 => hz ⟨l, hl, h0⟩
    refine hp.mono ?_
    show _ ≤ ((s.backjump 0).assignment.grow c.canonical.maxAtom).atomCount
    rw [Assignment.atomCount_grow hback.wellFormed.assignment]
    exact Nat.le_max_right _ _

end Clausal.Search
