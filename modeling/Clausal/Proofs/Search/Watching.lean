import Clausal.Proofs.Search.Steps

/-!
# What watching achieves

Only the clauses that watch a literal are looked at when it becomes false. This is enough, for where
a watched literal is false and has been propagated, the other watched literal is true, and stays so
until the levels are closed that make the first one false. During a solve this holds after every
step; a clause that is not satisfied then watches two literals that are not false.
-/

namespace Clausal.Search

/-- A literal is on the trail, and no level that is open at it is not open at position `i`. -/
def Backed (s : Search) (i : Nat) (o : Literal) : Prop :=
  ∃ j, s.assignment.trail[j]? = some o ∧ ∀ level ∈ s.levels, level.start ≤ j → level.start ≤ i

/-- The clauses of a state are looked after: all of the trail below the mark of propagation has been
taken notice of by the clauses that watch it, and the mark is not below a decision. -/
structure Settled (s : Search) : Prop where
  wellFormed : s.WellFormed
  watched : ∀ (key : Nat) (c : StoredClause) (w o : Literal), s.store.clauses[key]? = some c →
    c.Pair w o → ∀ i < s.head, s.assignment.trail[i]? = some (-w) → s.Backed i o
  caughtUp : ∀ level ∈ s.levels, level.start ≤ s.head

variable {s t : Search} {l : Literal} {level : Level} {below : List Level}

namespace Settled

theorem of_eq (h : s.Settled) (ha : t.assignment = s.assignment) (hs : t.store = s.store)
    (hl : t.levels = s.levels) (hh : t.head = s.head) : t.Settled := by
  constructor
  · exact h.wellFormed.of_eq ha hs hl
  · unfold Backed
    rw [ha, hs, hl, hh]
    exact h.watched
  · rw [hl, hh]
    exact h.caughtUp

/-- Nothing is to be taken notice of as long as nothing is propagated. -/
theorem of_head_eq_zero (hw : s.WellFormed) (hl : s.levels = []) (hh : s.head = 0) :
    s.Settled where
  wellFormed := hw
  watched key c w o hc hp i hi := by omega
  caughtUp level hlevel := by simp [hl] at hlevel

/-! ## Propagation -/

/-- A position before the mark of propagation lies behind the trail that was, too. -/
theorem getElem?_propagateLiteral (h : s.Settled) {i : Nat} (hi : i < s.assignment.trail.size) :
    (s.propagateLiteral l).2.assignment.trail[i]? = s.assignment.trail[i]? := by
  obtain ⟨kept, pending, hv, -⟩ := visiting_propagateLiteral h.wellFormed l
  exact Assignment.getElem?_eq_of_isPrefix hv.trail hi

/-- A clause keeps notice of what was propagated before while another literal is. -/
theorem watched_propagateLiteral (h : s.Settled) (hl : s.assignment.trail[s.head]? = some l)
    {key : Nat} {d : StoredClause} {w o : Literal}
    (hd : (s.propagateLiteral l).2.store.clauses[key]? = some d) (hp : d.Pair w o) {i : Nat}
    (hi : i < s.head) (hw : s.assignment.trail[i]? = some (-w)) :
    (s.propagateLiteral l).2.Backed i o := by
  obtain ⟨kept, pending, hv, -⟩ := visiting_propagateLiteral h.wellFormed l
  have ha := h.wellFormed.assignment
  obtain ⟨c, hc, hmoved⟩ := hv.moved.to_left hd
  rcases hmoved.pair with hpair | ⟨o', m, hco, hdo, -, hm⟩
  · obtain ⟨j, hj, hlevels⟩ := h.watched key c w o hc ((hpair w o).mp hp) i hi hw
    exact ⟨j, Assignment.getElem?_of_isPrefix hv.trail hj, hlevels⟩
  -- the clause has left the list: neither of its watched literals has been propagated
  · exfalso
    have hor : w = o' ∨ w = m := by
      rcases hp with ⟨rfl, rfl⟩ | ⟨rfl, rfl⟩ <;> rcases hdo with ⟨rfl, rfl⟩ | ⟨rfl, rfl⟩ <;> simp
    rcases hor with rfl | rfl
    · obtain ⟨j, hj, -⟩ := h.watched key c w (-l) hc hco.symm i hi hw
      exact ha.not_mem_neg (Array.mem_of_getElem? hl) (Array.mem_of_getElem? hj)
    · exact hm (ha.valueOf_false.mpr (Array.mem_of_getElem? hw))

/-- A literal that is propagated without conflict has been taken notice of. -/
theorem backed_propagateLiteral (h : s.Settled) (hl : s.assignment.trail[s.head]? = some l)
    (hr : (s.propagateLiteral l).1 = none) {key : Nat} {d : StoredClause} {o : Literal}
    (hd : (s.propagateLiteral l).2.store.clauses[key]? = some d) (hp : d.Pair (-l) o) :
    (s.propagateLiteral l).2.Backed s.head o := by
  obtain ⟨kept, pending, hv, -, hend⟩ := visiting_propagateLiteral h.wellFormed l
  rw [hr] at hend
  simp only at hend
  subst hend
  have hkey : key ∈ kept := by
    have := (hv.mirrors.mem (-l) key).mpr ⟨d, hd, hp.watches⟩
    simpa using this
  have hmem := Array.mem_of_getElem? hl
  have ho := hv.kept (by rwa [Literal.neg_neg]) key hkey d o hd hp
  obtain ⟨j, hj⟩ := Array.mem_iff_getElem?.mp ho
  exact ⟨j, hj, fun level hlevel _ => h.caughtUp level hlevel⟩

theorem propagateLiteral (h : s.Settled) (hl : s.assignment.trail[s.head]? = some l) :
    (s.propagateLiteral l).2.Settled where
  wellFormed := h.wellFormed.propagateLiteral l
  watched key d w o hd hp i hi hw := by
    have hlt := (Array.getElem?_eq_some_iff.mp hl).1
    have hi : i < s.head := hi
    rw [h.getElem?_propagateLiteral (Nat.lt_trans hi hlt)] at hw
    exact h.watched_propagateLiteral hl hd hp hi hw
  caughtUp := h.caughtUp

theorem advance (h : s.Settled) (hl : s.assignment.trail[s.head]? = some l)
    (hr : (s.propagateLiteral l).1 = none) :
    { (s.propagateLiteral l).2 with head := s.head + 1 }.Settled where
  wellFormed := (h.wellFormed.propagateLiteral l).of_eq rfl rfl rfl
  watched key d w o hd hp i hi hw := by
    have hlt := (Array.getElem?_eq_some_iff.mp hl).1
    have hi : i < s.head + 1 := hi
    have hw : (s.propagateLiteral l).2.assignment.trail[i]? = some (-w) := hw
    rw [h.getElem?_propagateLiteral (by omega)] at hw
    -- what was propagated before is still noticed, and the literal at the mark is so by now
    rcases Nat.lt_succ_iff_lt_or_eq.mp hi with hlt' | rfl
    · exact h.watched_propagateLiteral hl hd hp hlt' hw
    · rw [hl] at hw
      have hwl : -l = w := by rw [Option.some.inj hw, Literal.neg_neg]
      subst hwl
      exact h.backed_propagateLiteral hl hr hd hp
  caughtUp level hlevel := Nat.le_succ_of_le (h.caughtUp level hlevel)

/-- Propagation goes through the whole trail, or ends at a clause that is false. -/
theorem propagate (h : s.Settled) (hh : s.head ≤ s.assignment.trail.size) :
    s.propagate.2.Settled ∧ s.propagate.2.head ≤ s.propagate.2.assignment.trail.size ∧
      match s.propagate.1 with
      | none => s.propagate.2.head = s.propagate.2.assignment.trail.size
      | some key => ∃ c, s.propagate.2.store.clauses[key]? = some c ∧
          IsFalse s.propagate.2.assignment c := by
  fun_induction Search.propagate s with
  | case1 s hnone =>
    have hsize := Array.getElem?_eq_none_iff.mp hnone
    exact ⟨h, hh, Nat.le_antisymm hh hsize⟩
  | case2 s l hl key t ht =>
    have hlt := (Array.getElem?_eq_some_iff.mp hl).1
    have hnext := h.propagateLiteral hl
    have hsize := size_trail_le_propagateLiteral s l
    obtain ⟨_, _, -, -, hend⟩ := visiting_propagateLiteral h.wellFormed l
    have hhead : (s.propagateLiteral l).2.head = s.head := rfl
    rw [ht] at hnext hsize hend hhead
    simp only at hnext hsize hhead
    exact ⟨hnext, by simp only [hhead]; omega, hend (Array.mem_of_getElem? hl)⟩
  | case3 s l hl t ht ih =>
    have hlt := (Array.getElem?_eq_some_iff.mp hl).1
    have hnext := h.advance hl (by rw [ht])
    have hsize := size_trail_le_propagateLiteral s l
    have hhead : (s.propagateLiteral l).2.head = s.head := rfl
    rw [ht] at hnext hsize hhead
    simp only at hnext hsize hhead
    rw [← hhead] at hnext hlt
    exact ih hnext (by simp only; omega)

/-! ## Levels -/

theorem closed (h : s.Settled) (hl : s.levels = level :: below) :
    (s.closed level below).Settled where
  wellFormed := h.wellFormed.closed hl
  watched key c w o hc hp i hi hw := by
    obtain ⟨hlt, hw⟩ := getElem?_of_closed hw
    obtain ⟨j, hj, hlevels⟩ := h.watched key c w o hc hp i hi hw
    -- the level closed is not open at `i`, and so not where the other literal is
    have hjlt : j < level.start := by
      apply Nat.lt_of_not_le
      intro hge
      have := hlevels level (by simp [hl]) hge
      omega
    refine ⟨j, ?_, fun b hb => hlevels b (by rw [hl]; exact List.mem_cons_of_mem _ hb)⟩
    rw [getElem?_trail_closed, if_pos hjlt, hj]
  caughtUp b hb := h.caughtUp b (hl ▸ List.mem_cons_of_mem _ hb)

theorem closeLevels (h : s.Settled) (n : Nat) : (closeLevels n s).Settled :=
  closeLevels_induction (fun _ _ _ h hl => h.closed hl) n h

theorem openLevel (h : s.Settled) (hh : s.head = s.assignment.trail.size)
    (ho : s.assignment.IsOpen l.atom) (h0 : l.atom ≠ 0) (flipped : Bool) :
    (s.openLevel l flipped).Settled where
  wellFormed := h.wellFormed.openLevel ho h0 flipped
  watched key c w o hc hp i hi hw := by
    have hi : i < s.head := hi
    rw [hh] at hi
    rw [getElem?_openLevel ho hi] at hw
    obtain ⟨j, hj, hlevels⟩ := h.watched key c w o hc hp i (by omega) hw
    have hlt := (Array.getElem?_eq_some_iff.mp hj).1
    -- the level opened starts after every literal that was there
    refine ⟨j, (getElem?_openLevel ho hlt).trans hj, ?_⟩
    intro level hlevel hstart
    rcases List.mem_cons.mp hlevel with rfl | hlevel
    · simp only at hstart
      omega
    · exact hlevels level hlevel hstart
  caughtUp level hlevel := by
    rcases List.mem_cons.mp hlevel with rfl | hlevel
    · exact Nat.le_of_eq hh.symm
    · exact h.caughtUp level hlevel

/-- The level that backtracking opens lies where the level that it turns round lay. -/
theorem turned (h : s.Settled) (hl : s.levels = level :: below) :
    (s.turned level below).Settled := by
  obtain ⟨ho, h0⟩ := h.wellFormed.isOpen_closed hl
  have hclosed := h.closed hl
  have hstart : level.start ≤ s.head := h.caughtUp level (by simp [hl])
  have hsize : (s.closed level below).assignment.trail.size = level.start := by
    have hlt := (Array.getElem?_eq_some_iff.mp (h.wellFormed.decisions level (by simp [hl]))).1
    show (s.assignment.trail.take level.start).size = level.start
    simp only [Array.take_eq_extract, Array.size_extract]
    omega
  rw [← Literal.atom_neg] at ho h0
  refine openLevel (s := { s.closed level below with
    head := (s.closed level below).assignment.trail.size }) ⟨?_, ?_, ?_⟩ rfl ho h0 true
  · exact hclosed.wellFormed.of_eq rfl rfl rfl
  · intro key c w o hc hp i hi hw
    have hi : i < (s.closed level below).assignment.trail.size := hi
    rw [hsize] at hi
    exact hclosed.watched key c w o hc hp i (Nat.lt_of_lt_of_le hi hstart) hw
  · intro b hb
    have hsorted := h.wellFormed.sorted
    rw [hl] at hsorted
    have hlt := (List.pairwise_cons.mp hsorted).1 b hb
    show b.start ≤ (s.closed level below).assignment.trail.size
    rw [hsize]
    exact Nat.le_of_lt hlt

theorem backtracked (h : s.Settled) (hb : Backtracked s true t) :
    t.Settled ∧ t.head ≤ t.assignment.trail.size := by
  cases hb with
  | @turned above below level hl habove hlevel =>
    have hclose := h.closeLevels above.length
    exact ⟨hclose.turned (levels_closeLevels_append hl), Assignment.size_trail_le_assign _ _⟩

/-! ## Clauses of a propagated state -/

/-- The clauses of a state whose trail has been propagated to the end: the other watched literal is
true where one is false. -/
theorem mem_of_pair (h : s.Settled) (hh : s.head = s.assignment.trail.size) {key : Nat}
    {c : StoredClause} {w o : Literal} (hc : s.store.clauses[key]? = some c) (hp : c.Pair w o)
    (hw : -w ∈ s.assignment.trail) : o ∈ s.assignment.trail := by
  obtain ⟨i, hi⟩ := Array.mem_iff_getElem?.mp hw
  have hlt := (Array.getElem?_eq_some_iff.mp hi).1
  obtain ⟨j, hj, -⟩ := h.watched key c w o hc hp i (by omega) hi
  exact Array.mem_of_getElem? hj

end Settled

end Clausal.Search
