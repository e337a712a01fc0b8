import Clausal.Proofs.Search.Calls
import Clausal.Proofs.Search.Scanning
import Mathlib.Order.Bounds.Defs

/-!
# Watching against scanning

Propagation looks at few clauses, and scanning at all of them; during a solve they come to the same.
What a solve adds to the trail it began with are decisions and literals that stored clauses force, so
the trail lies in every closed set that has the literals at the start and the decisions. Where the
trail has been propagated to the end it is such a set itself; where a clause is false, scanning
falsifies a clause, too.
-/

namespace Clausal.Search

variable {s₀ s t u : Search} {l : Literal} {level : Level} {below : List Level} {cs : List Clause}
  {clock : Clock} {S : Set Literal}

/-! ## Stored clauses -/

/-- The stored clauses, in the order they came. -/
def stored (s : Search) : List Clause := s.store.clauses.toList.map StoredClause.literals

theorem mem_stored {c : Clause} :
    c ∈ s.stored ↔ ∃ (key : Nat) (d : StoredClause), s.store.clauses[key]? = some d ∧
      d.literals = c := by
  simp only [stored, List.mem_map, Array.mem_toList_iff, Array.mem_iff_getElem?]
  constructor
  · rintro ⟨d, ⟨key, hd⟩, hc⟩
    exact ⟨key, d, hd, hc⟩
  · rintro ⟨key, d, hd, hc⟩
    exact ⟨d, ⟨key, hd⟩, hc⟩

/-- Clauses that are rearranged stay what they are, but for the order of their literals. -/
theorem Rearranged.exists_perm (h : Rearranged s.store.clauses t.store.clauses) :
    ∀ d ∈ t.stored, ∃ c ∈ s.stored, d.Perm c := by
  intro d hd
  obtain ⟨key, e, he, rfl⟩ := mem_stored.mp hd
  obtain ⟨c, hc, hp⟩ := h.to_left he
  exact ⟨c.literals, mem_stored.mpr ⟨key, c, hc, rfl⟩, hp⟩

/-! ## What a solve adds to the trail -/

/-- A state that a solve comes to from `s₀`: what it has added to the trail are the decisions of the
open levels and literals that stored clauses force. -/
structure Rooted (s₀ s : Search) : Prop where
  trail : s₀.assignment.trail.toList <+: s.assignment.trail.toList
  above : ∀ level ∈ s.levels, s₀.assignment.trail.size ≤ level.start
  justified : ∀ i l, s₀.assignment.trail.size ≤ i → s.assignment.trail[i]? = some l →
    Justified [] s i l

namespace Rooted

theorem refl (hl : s.levels = []) : Rooted s s where
  trail := List.prefix_refl _
  above level hlevel := by simp [hl] at hlevel
  justified i l hi h := by
    have := (Array.getElem?_eq_some_iff.mp h).1
    omega

theorem of_eq (h : Rooted s₀ s) (ha : t.assignment = s.assignment) (hs : t.store = s.store)
    (hl : t.levels = s.levels) : Rooted s₀ t := by
  constructor
  · rw [ha]
    exact h.trail
  · rw [hl]
    exact h.above
  · unfold Justified Ground
    rw [ha, hs, hl]
    exact h.justified

theorem of_extends (h : Rooted s₀ s) (he : Extends s t) : Rooted s₀ t where
  trail := h.trail.trans he.trail
  above := by
    rw [he.levels]
    exact h.above
  justified i _ hi hl := he.justified (fun l hl => h.justified i l hi hl) hl

theorem closed (h : Rooted s₀ s) (hl : s.levels = level :: below) :
    Rooted s₀ (s.closed level below) where
  trail := by
    show _ <+: (s.assignment.unwind level.start).trail.toList
    rw [Assignment.trail_unwind, List.prefix_take_iff]
    exact ⟨h.trail, h.above level (by simp [hl])⟩
  above b hb := h.above b (hl ▸ List.mem_cons_of_mem _ hb)
  justified i l hi hil := by
    obtain ⟨hlt, hil⟩ := getElem?_of_closed hil
    exact (h.justified i l hi hil).closed hl hlt

theorem closeLevels (h : Rooted s₀ s) (n : Nat) : Rooted s₀ (Search.closeLevels n s) :=
  closeLevels_induction (fun _ _ _ h hl => h.closed hl) n h

theorem openLevel (h : Rooted s₀ s) (ho : s.assignment.IsOpen l.atom) (flipped : Bool) :
    Rooted s₀ (s.openLevel l flipped) where
  trail := h.trail.trans (Assignment.isPrefix_assign _ _)
  above level hlevel := by
    rcases List.mem_cons.mp hlevel with rfl | hlevel
    · simpa using h.trail.length_le
    · exact h.above level hlevel
  justified i _ hi hm := justified_openLevel ho (fun m hm => h.justified i m hi hm) hm

theorem backtracked (h : Rooted s₀ s) (hs : s.Settled) (hb : Backtracked s true t) :
    Rooted s₀ t := by
  cases hb with
  | @turned above below level hl habove hlevel =>
    have hlevels := levels_closeLevels_append hl
    obtain ⟨ho, -⟩ := (hs.closeLevels above.length).wellFormed.isOpen_closed hlevels
    rw [← Literal.atom_neg] at ho
    have hclosed := ((h.closeLevels above.length).closed hlevels).of_eq
      (t := { (Search.closeLevels above.length s).closed level below with
        head := ((Search.closeLevels above.length s).closed level below).assignment.trail.size })
      rfl rfl rfl
    exact hclosed.openLevel ho true

theorem branched (h : Rooted s₀ s) (hb : Branched s (some l) t) : Rooted s₀ t := by
  cases hb with
  | @opened l source counters ho h0 =>
    exact (h.of_eq (t := { s with source, counters }) rfl rfl rfl).openLevel ho false

theorem propagate (h : Rooted s₀ s) (hw : s.WellFormed) : Rooted s₀ s.propagate.2 :=
  h.of_extends (wellFormed_extends_propagate hw).2

end Rooted

/-- Passes without an answer add decisions and forced literals only. -/
theorem Passes.rooted (h : Passes clock s₀ s) (hs : Searching cs s₀) (hl : s₀.levels = []) :
    Rooted s₀ s := by
  refine h.induction hs (.refl hl) ?_ ?_ ?_
  · intro u hu hrooted
    have hcount : Rooted s₀ u.countPass := hrooted.of_eq rfl rfl rfl
    exact hcount.propagate hu.countPass.represents.wellFormed
  · intro u w hu _ hrooted hb
    have hcount : Rooted s₀ u.countConflict := hrooted.of_eq rfl rfl rfl
    exact hcount.backtracked hu.settled hb
  · intro u l w hu _ hrooted hb
    have hspec := branch_spec hu.represents.wellFormed
    rw [hb] at hspec
    exact hrooted.branched hspec

/-- The literals that a solve begins with, and the decisions of the open levels. -/
def roots (s₀ s : Search) : List Literal :=
  s₀.assignment.trail.toList ++ s.levels.map Level.decision

namespace Rooted

theorem mem_trail_of_mem_roots (h : Rooted s₀ s) (hw : s.WellFormed) :
    ∀ l ∈ roots s₀ s, l ∈ s.assignment.trail := by
  intro l hl
  rcases List.mem_append.mp hl with hl | hl
  · exact Array.mem_toList_iff.mp (h.trail.subset hl)
  · obtain ⟨level, hlevel, rfl⟩ := List.mem_map.mp hl
    exact Array.mem_of_getElem? (hw.decisions level hlevel)

/-- The trail lies in every closed set that has its roots. -/
theorem trail_subset (h : Rooted s₀ s) (hw : s.WellFormed) (hroots : ∀ l ∈ roots s₀ s, l ∈ S)
    (hS : UnitClosed s.stored S) : ∀ l ∈ s.assignment.trail, l ∈ S := by
  -- a literal is forced by those before it, so the induction is over all smaller positions
  have hpos : ∀ (i : Nat) (l : Literal), s.assignment.trail[i]? = some l → l ∈ S := by
    intro i
    induction i using Nat.strongRecOn with
    | ind i ih =>
      intro l hl
      rcases Nat.lt_or_ge i s₀.assignment.trail.size with hlt | hge
      · apply hroots l (List.mem_append_left _ _)
        rw [Assignment.getElem?_eq_of_isPrefix h.trail hlt] at hl
        exact Array.mem_toList_iff.mpr (Array.mem_of_getElem? hl)
      · rcases h.justified i l hge hl with ⟨level, hlevel, rfl⟩ | ⟨-, c, hc, -⟩ | hforced
        · apply hroots l (List.mem_append_right _ _)
          have hdecision := hw.decisions level hlevel
          rw [hl] at hdecision
          cases hdecision
          exact List.mem_map_of_mem hlevel
        · cases hc
        · obtain ⟨key, c, hc, hlc, hother⟩ := hforced
          refine hS c.literals (mem_stored.mpr ⟨key, c, hc, rfl⟩) l hlc fun m hm hne => ?_
          obtain ⟨j, hj, hjm⟩ := hother m hm hne
          exact ih j hj _ hjm
  intro l hl
  obtain ⟨i, hi⟩ := Array.mem_iff_getElem?.mp hl
  exact hpos i l hi

end Rooted

/-! ## Trails that have been propagated -/

/-- A clause has a true literal, or two without a value. -/
def TrueOrOpen (s : Search) (c : Clause) : Prop :=
  (∃ l ∈ c, s.valueOf l = some true) ∨
    ∃ l ∈ c, ∃ m ∈ c, l ≠ m ∧ s.valueOf l = none ∧ s.valueOf m = none

theorem TrueOrOpen.perm {c d : Clause} (h : s.TrueOrOpen d) (hp : d.Perm c) : s.TrueOrOpen c := by
  rcases h with ⟨l, hl, htrue⟩ | ⟨l, hl, m, hm, hne, hlv, hmv⟩
  · exact .inl ⟨l, hp.mem_iff.mp hl, htrue⟩
  · exact .inr ⟨l, hp.mem_iff.mp hl, m, hp.mem_iff.mp hm, hne, hlv, hmv⟩

/-- A clause that is true or open is not false. -/
theorem TrueOrOpen.exists_ne_false {c : Clause} (h : s.TrueOrOpen c) :
    ∃ l ∈ c, s.valueOf l ≠ some false := by
  rcases h with ⟨l, hl, htrue⟩ | ⟨l, hl, -, -, -, hlv, -⟩
  · exact ⟨l, hl, by simp [htrue]⟩
  · exact ⟨l, hl, by simp [hlv]⟩

/-- The last literal of a clause that is true or open is true once the others are false. -/
theorem TrueOrOpen.valueOf_eq_true {c : Clause} (h : s.TrueOrOpen c)
    (hother : ∀ m ∈ c, m ≠ l → s.valueOf m = some false) : s.valueOf l = some true := by
  rcases h with ⟨m, hm, htrue⟩ | ⟨m, hm, k, hk, hmk, hmv, hkv⟩
  · by_cases hml : m = l
    · exact hml ▸ htrue
    · rw [hother m hm hml] at htrue
      cases htrue
  -- of two literals without a value one is not the last
  · by_cases hml : m = l
    · rw [hother k hk (hml ▸ hmk.symm)] at hkv
      cases hkv
    · rw [hother m hm hml] at hmv
      cases hmv

namespace Settled

theorem trueOrOpen (h : s.Settled) (hh : s.head = s.assignment.trail.size) :
    ∀ c ∈ s.stored, s.TrueOrOpen c := by
  intro c hc
  obtain ⟨key, d, hd, rfl⟩ := mem_stored.mp hc
  have ha := h.wellFormed.assignment
  have hpair : d.Pair d.first d.second := .inl ⟨rfl, rfl⟩
  have hfirst : d.first ∈ d.literals := by simp [StoredClause.literals]
  have hsecond : d.second ∈ d.literals := by simp [StoredClause.literals]
  cases hv : s.assignment.valueOf d.first with
  | some b =>
    cases b with
    | true => exact .inl ⟨d.first, hfirst, hv⟩
    | false =>
      have hmem := h.mem_of_pair hh hd hpair (ha.valueOf_false.mp hv)
      exact .inl ⟨d.second, hsecond, ha.valueOf_true.mpr hmem⟩
  | none =>
    cases hw : s.assignment.valueOf d.second with
    | some b =>
      cases b with
      | true => exact .inl ⟨d.second, hsecond, hw⟩
      | false =>
        have hmem := h.mem_of_pair hh hd hpair.symm (ha.valueOf_false.mp hw)
        exact .inl ⟨d.first, hfirst, ha.valueOf_true.mpr hmem⟩
    | none =>
      have hne := hpair.ne (h.wellFormed.store.proper key d hd)
      exact .inr ⟨d.first, hfirst, d.second, hsecond, hne, hv, hw⟩

theorem unitClosed_trail (h : s.Settled) (hh : s.head = s.assignment.trail.size) :
    UnitClosed s.stored {l | l ∈ s.assignment.trail} := by
  have ha := h.wellFormed.assignment
  intro c hc l _ hother
  exact ha.valueOf_true.mp ((h.trueOrOpen hh c hc).valueOf_eq_true fun m hm hne =>
    ha.valueOf_false.mpr (hother m hm hne))

theorem not_falsifies_trail (h : s.Settled) (hh : s.head = s.assignment.trail.size) :
    ¬ Falsifies s.stored {l | l ∈ s.assignment.trail} := by
  rintro ⟨c, hc, hall⟩
  obtain ⟨l, hl, hne⟩ := (h.trueOrOpen hh c hc).exists_ne_false
  exact hne (h.wellFormed.assignment.valueOf_false.mpr (hall l hl))

end Settled

/-! ## Agreement -/

/-- Sets that have the literals which propagation starts from and are closed under it. -/
def closedSets (s₀ s : Search) : Set (Set Literal) :=
  {S | (∀ l ∈ roots s₀ s, l ∈ S) ∧ UnitClosed s.stored S}

/-- What propagation does in a state `s` of a solve that began with `s₀`, by its answer and the state
it ends in. -/
inductive Agrees (s₀ s : Search) : Option Nat → Search → Prop
  /-- There is no conflict: the trail is the least closed set, and clauses are true or open. -/
  | closed {t : Search} (hclauses : ∀ c ∈ s.stored, t.TrueOrOpen c)
      (hleast : IsLeast (closedSets s₀ s) {l | l ∈ t.assignment.trail})
      (hnaive : ¬ Falsifies s.stored {l | l ∈ Scanning.naive s.stored (roots s₀ s)}) :
      Agrees s₀ s none t
  /-- A stored clause is false, and so one is to scanning. -/
  | conflict {key : Nat} {c : StoredClause} {t : Search} (hc : s.store.clauses[key]? = some c)
      (hfalse : ∀ l ∈ c.literals, t.valueOf l = some false)
      (hnaive : Falsifies s.stored {l | l ∈ Scanning.naive s.stored (roots s₀ s)}) :
      Agrees s₀ s (some key) t

theorem Rooted.agrees_propagate (h : Rooted s₀ s) (hs : s.Settled)
    (hh : s.head ≤ s.assignment.trail.size) : Agrees s₀ s s.propagate.1 s.propagate.2 := by
  obtain ⟨hsettled, -, hend⟩ := hs.propagate hh
  obtain ⟨hw, hext⟩ := wellFormed_extends_propagate hs.wellFormed
  have hrooted := h.of_extends hext
  have hroots : roots s₀ s.propagate.2 = roots s₀ s := by rw [roots, roots, hext.levels]
  have hto := hext.clauses.exists_perm
  have hfrom := hext.clauses.symm.exists_perm
  generalize s.propagate = r at hsettled hend hw hext hrooted hroots hto hfrom ⊢
  obtain ⟨_ | key, t⟩ := r
  · have hmem := hrooted.mem_trail_of_mem_roots hw
    rw [hroots] at hmem
    have hclosed := (hsettled.unitClosed_trail hend).of_perm hfrom
    refine .closed (fun c hc => ?_) ⟨⟨hmem, hclosed⟩, fun S hS => ?_⟩ fun hnaive => ?_
    · obtain ⟨d, hd, hp⟩ := hfrom c hc
      exact (hsettled.trueOrOpen hend d hd).perm hp.symm
    · exact hrooted.trail_subset hw (hroots ▸ hS.1) (hS.2.of_perm hto)
    -- what scanning knows is on the trail, which falsifies no clause
    · obtain ⟨c, hc, hall⟩ := hnaive
      obtain ⟨d, hd, hp⟩ := hfrom c hc
      refine hsettled.not_falsifies_trail hend ⟨d, hd, fun m hm => ?_⟩
      exact Scanning.naive_subset hclosed hmem _ (hall m (hp.mem_iff.mpr hm))
  · obtain ⟨d, hd, hf⟩ := hend
    obtain ⟨c, hc, hp⟩ := hext.clauses.to_left hd
    have hfalse : ∀ l ∈ c.literals, -l ∈ t.assignment.trail := fun l hl => hf l (hp.mem_iff.mpr hl)
    refine .conflict hc (fun l hl => hw.assignment.valueOf_false.mpr (hfalse l hl)) ?_
    -- were no clause falsified, what scanning knows would be closed, and so have the whole trail
    by_contra hno
    have hclosed := (Scanning.unitClosed_naive hno).of_perm hto
    have hsub := hrooted.trail_subset hw (hroots ▸ Scanning.subset_naive s.stored (roots s₀ s)) hclosed
    exact hno ⟨c.literals, mem_stored.mpr ⟨key, c, hc, rfl⟩, fun l hl => hsub _ (hfalse l hl)⟩

/-- In every pass of a solve, whatever calls were made before it, propagation agrees with scanning
all stored clauses from the literals that the solve began with and the decisions of the open
levels. -/
theorem agrees_propagate_of_passes (config : Config) (source : Random.Source) (n : Nat)
    {calls : List Call}
    (h : Reaches (fun t call => call.IsSound t) (withSource config source n) calls s)
    (hs : s.restart = (none, s₀)) (hp : Passes clock s₀ t) :
    Agrees s₀ t.countPass t.countPass.propagate.1 t.countPass.propagate.2 := by
  have hrep := h.represents (represents_withSource config source n)
  have hstart : s.inconsistent = false ∧ s₀ = { s.backjump 0 with head := 0 } := by
    unfold restart at hs
    cases hi : s.inconsistent with
    | true =>
      rw [hi] at hs
      cases hs
    | false =>
      rw [hi] at hs
      cases hs
      exact ⟨rfl, rfl⟩
  obtain ⟨hi, rfl⟩ := hstart
  have hsearching := Searching.restart hrep hi
  have ht := (hp.searching hsearching).countPass
  have hrooted : Rooted _ t.countPass :=
    (hp.rooted hsearching (levels_backjump_zero s)).of_eq rfl rfl rfl
  exact hrooted.agrees_propagate ht.settled ht.bounded

/-- Once the first of two atoms is decided to be false the clause of both is propagated. -/
theorem agrees_propagate_after_decision :
    let new := withSource .default ⟨fun _ => 0, 0⟩ 2
    let s := (new.perform (.addClause [⟨1, true⟩, ⟨2, true⟩])).2
    let s₀ := s.restart.2
    let t := (s₀.pass fun _ => .zero).2
    Reaches (fun t call => call.IsSound t) new [.addClause [⟨1, true⟩, ⟨2, true⟩]] s ∧
      s.restart = (none, s₀) ∧ Passes (fun _ => .zero) s₀ t ∧
      roots s₀ t.countPass = [⟨1, false⟩] ∧ t.countPass.propagate.1 = none ∧
      t.countPass.propagate.2.assignment.trail.toList = [⟨1, false⟩, ⟨2, true⟩] ∧
      Agrees s₀ t.countPass t.countPass.propagate.1 t.countPass.propagate.2 := by
  intro new s s₀ t
  have hr : Reaches (fun t call => call.IsSound t) new [.addClause [⟨1, true⟩, ⟨2, true⟩]] s :=
    Reaches.refl.call trivial
  have hs : s.restart = (none, s₀) := rfl
  have hnone : (s₀.pass fun _ => .zero).1 = none := by decide +kernel
  have hpass := pass_spec (fun _ => .zero) s₀
  rw [hnone] at hpass
  have hp : Passes (fun _ => .zero) s₀ t := .next .refl hpass
  exact ⟨hr, hs, hp, by decide +kernel, by decide +kernel, by decide +kernel,
    agrees_propagate_of_passes .default ⟨fun _ => 0, 0⟩ 2 hr hs hp⟩

end Clausal.Search
