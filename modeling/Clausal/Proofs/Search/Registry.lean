import Clausal.Proofs.Search.Termination
import Clausal.Proofs.Search.WellFormed
import Mathlib.Data.List.Nodup
import Mathlib.Logic.Relation

/-!
# What is stored, and where it is listed

A clause is stored under the next free number. No call changes more of it afterwards than the order
of its literals, so what the numbers stand for can be read off the calls. The lists of watchers are
an index of what is stored: a clause is once in the list of each of its first two literals, and
nothing else is in a list. A visit takes this index apart and puts it together again, but the numbers
it has still to visit are those of stored clauses all the time.
-/

namespace Clausal.Search

variable {s t : Search} {cs : List Clause} {c : Clause} {l : Literal} {clock : Clock} {call : Call}
  {calls : List Call} {ok : Search → Call → Prop}

/-! ## What calls store -/

/-- The clause that a call stores, in canonical form. No clause with a zero and no tautology is
stored, and none with less than two literals. -/
def Call.registered : Call → List Clause
  | .addClause c =>
    if HasZero c ∨ c.canonical.hasComplement = true ∨ c.canonical.length < 2 then []
    else [c.canonical]
  | _ => []

/-- The clauses that calls store, in the order of their numbers. -/
def registered (calls : List Call) : List Clause := calls.flatMap Call.registered

theorem registered_append (calls : List Call) (call : Call) :
    registered (calls ++ [call]) = registered calls ++ call.registered := by
  simp [registered]

/-- The stored clauses are the given ones, number for number, with their literals in some order. -/
structure Stores (cs : List Clause) (s : Search) : Prop where
  size : s.store.clauses.size = cs.length
  perm : ∀ (key : Nat) (c : Clause) (d : StoredClause), cs[key]? = some c →
    s.store.clauses[key]? = some d → d.literals.Perm c

theorem Stores.of_rearranged (h : Stores cs s)
    (hr : Rearranged s.store.clauses t.store.clauses) : Stores cs t where
  size := hr.size.trans h.size
  perm key c d hc hd := by
    obtain ⟨e, he, hp⟩ := hr.to_left hd
    exact hp.trans (h.perm key c e hc he)

theorem Stores.push (h : Stores cs s) {d : StoredClause} (hd : d.literals.Perm c)
    (ht : t.store.clauses = s.store.clauses.push d) : Stores (cs ++ [c]) t where
  size := by simp [ht, h.size]
  perm key e f he hf := by
    have hsize := h.size
    rw [ht, Array.getElem?_push] at hf
    split at hf
    -- the last number is that of the clause pushed
    · rename_i hkey
      rw [hkey, hsize, List.getElem?_concat_length] at he
      cases he
      cases hf
      exact hd
    · have hlt := (Array.getElem?_eq_some_iff.mp hf).1
      rw [List.getElem?_append_left (by omega)] at he
      exact h.perm key e f he hf

/-! ## Steps of a solve -/

theorem Rearranged.of_store_eq (h : t.store = s.store) :
    Rearranged s.store.clauses t.store.clauses := by
  rw [h]
  exact Pointwise.refl (fun _ => List.Perm.refl _) _

theorem store_closeLevels (n : Nat) (s : Search) : (closeLevels n s).store = s.store :=
  closeLevels_induction (P := fun t => t.store = s.store) (fun _ _ _ h _ => h) n rfl

theorem store_backjump (target : Nat) (s : Search) : (s.backjump target).store = s.store :=
  store_closeLevels (s.level - target) s

theorem Backtracked.store_eq {turned : Bool} (h : Backtracked s turned t) :
    t.store = s.store := by
  cases h with
  | @turned above below level hl habove hlevel => exact store_closeLevels above.length s
  | exhausted hall => exact store_closeLevels s.level s

theorem store_backtrack (s : Search) : s.backtrack.2.store = s.store := (backtrack_spec s).store_eq

theorem store_branch (s : Search) : s.branch.2.store = s.store := by
  unfold branch
  split <;> rfl

theorem store_addUnit (s : Search) (l : Literal) : (s.addUnit l).2.store = s.store := by
  unfold addUnit
  split <;> rfl

theorem WellFormed.rearranged_propagateLiteral (h : s.WellFormed) (l : Literal) :
    Rearranged s.store.clauses (s.propagateLiteral l).2.store.clauses := by
  obtain ⟨_, _, hv, -, -⟩ := visiting_propagateLiteral h l
  exact hv.rearranged

theorem WellFormed.rearranged_propagate (h : s.WellFormed) :
    Rearranged s.store.clauses s.propagate.2.store.clauses :=
  (wellFormed_extends_propagate h).2.clauses

/-- In a solve only propagation touches the store. -/
theorem stepInvariant_rearranged (s : Search) : StepInvariant fun t =>
    t.WellFormed ∧ Rearranged s.store.clauses t.store.clauses where
  restart t h := ⟨stepInvariant_wellFormed.restart t h.1,
    h.2.trans (.of_store_eq (store_backjump 0 t))⟩
  countPass t h := ⟨stepInvariant_wellFormed.countPass t h.1, h.2⟩
  countConflict t h := ⟨stepInvariant_wellFormed.countConflict t h.1, h.2⟩
  propagate _ h := ⟨h.1.propagate, h.2.trans h.1.rearranged_propagate⟩
  backtrack t h := ⟨h.1.backtrack, h.2.trans (.of_store_eq (store_backtrack t))⟩
  branch t h := ⟨h.1.branch, h.2.trans (.of_store_eq (store_branch t))⟩
  mark t h := ⟨stepInvariant_wellFormed.mark t h.1, h.2⟩

theorem WellFormed.rearranged_solve (h : s.WellFormed) (clock : Clock) :
    Rearranged s.store.clauses (s.solve clock).2.store.clauses :=
  ((stepInvariant_rearranged s).solve clock ⟨h, .of_store_eq rfl⟩).2

/-! ## Every history -/

theorem Stores.append_nil (h : Stores cs s) : Stores (cs ++ []) s := by
  rwa [List.append_nil]

theorem Stores.addCanonical (h : Stores cs s) (c : Clause) :
    Stores (cs ++ if c.length < 2 then [] else [c]) (s.addCanonical c).2 := by
  have hperm := perm_falseLast s.assignment c
  unfold Search.addCanonical
  generalize falseLast s.assignment c = d at hperm ⊢
  rw [← hperm.length_eq]
  rcases d with _ | ⟨first, _ | ⟨second, rest⟩⟩
  · exact h.append_nil.of_rearranged (.of_store_eq rfl)
  · exact h.append_nil.of_rearranged (.of_store_eq (store_addUnit s first))
  · rw [if_neg (by simp)]
    exact h.push (d := ⟨first, second, rest⟩) hperm rfl

theorem Stores.addClause (h : Stores cs s) (c : Clause) :
    Stores (cs ++ (Call.addClause c).registered) (s.addClause c).2 := by
  show Stores (cs ++ if HasZero c ∨ _ then [] else [c.canonical]) _
  by_cases hz : HasZero c
  · rw [if_pos (.inl hz), addClause_of_hasZero hz]
    exact h.append_nil
  · have hback : Stores cs (s.backjump 0) := h.of_rearranged (.of_store_eq (store_backjump 0 s))
    rw [addClause_of_not_hasZero hz]
    cases ht : c.canonical.hasComplement with
    | true =>
      rw [if_pos (.inr (.inl rfl))]
      exact hback.append_nil
    | false =>
      have hgrow : Stores cs ((s.backjump 0).grow c.canonical.maxAtom) := ⟨hback.size, hback.perm⟩
      simpa [hz] using hgrow.addCanonical c.canonical

theorem Stores.perform (h : Stores cs s) (hw : s.WellFormed) (call : Call) :
    Stores (cs ++ call.registered) (s.perform call).2 := by
  cases call with
  | addClause c => exact h.addClause c
  | solve clock => exact (h.of_rearranged (hw.rearranged_solve clock)).append_nil
  | propagate => exact (h.of_rearranged hw.rearranged_propagate).append_nil
  | propagateLiteral l => exact (h.of_rearranged (hw.rearranged_propagateLiteral l)).append_nil
  | branch => exact (h.of_rearranged (.of_store_eq (store_branch s))).append_nil
  | backtrack => exact (h.of_rearranged (.of_store_eq (store_backtrack s))).append_nil
  | backjump target => exact (h.of_rearranged (.of_store_eq (store_backjump target s))).append_nil

theorem Reaches.stores (hr : Reaches ok s calls t) (hw : s.WellFormed) (h : Stores cs s) :
    Stores (cs ++ registered calls) t := by
  induction hr with
  | refl => exact h.append_nil
  | call hr _ ih =>
    rw [registered_append, ← List.append_assoc]
    exact ih.perform (hr.wellFormed hw) _

/-! ## The index of watchers -/

/-- The lists of watchers are an index of the stored clauses. Lists are named by their slots, so that
each of them is meant. -/
structure Store.Indexed (s : Store) : Prop where
  literals : ∀ (key : Nat) (c : StoredClause), s.clauses[key]? = some c →
    2 ≤ c.literals.length ∧ (c.literals.map Literal.atom).Nodup
  first : ∀ (key : Nat) (c : StoredClause), s.clauses[key]? = some c →
    (s.watchersOf c.first).count key = 1
  second : ∀ (key : Nat) (c : StoredClause), s.clauses[key]? = some c →
    (s.watchersOf c.second).count key = 1
  others : ∀ (key : Nat) (c : StoredClause), s.clauses[key]? = some c →
    ∀ (slot : Nat) (keys : List Nat), s.watchers[slot]? = some keys →
      slot ≠ c.first.slot → slot ≠ c.second.slot → key ∉ keys
  stored : ∀ keys ∈ s.watchers, ∀ key ∈ keys, ∃ c, s.clauses[key]? = some c

/-- Every slot is that of a literal. -/
theorem exists_slot_eq (slot : Nat) : ∃ l : Literal, l.slot = slot := by
  rcases Nat.mod_two_eq_zero_or_one slot with h | h
  · exact ⟨⟨slot / 2, true⟩, by simp [Literal.slot]; omega⟩
  · exact ⟨⟨slot / 2, false⟩, by simp [Literal.slot]; omega⟩

theorem Store.watchersOf_of_getElem? {store : Store} {keys : List Nat}
    (h : store.watchers[l.slot]? = some keys) : store.watchersOf l = keys := by
  rw [watchersOf, h, Option.getD_some]

theorem Store.WellFormed.count_watchersOf {store : Store} {n key : Nat} {d : StoredClause}
    (h : store.WellFormed n) (hd : store.clauses[key]? = some d) (hl : d.Watches l) :
    (store.watchersOf l).count key = 1 :=
  List.count_eq_one_of_mem (h.mirrors.nodup l) ((h.mirrors.mem l key).mpr ⟨d, hd, hl⟩)

theorem Store.WellFormed.indexed {store : Store} {n : Nat} (h : store.WellFormed n) :
    store.Indexed where
  literals key d hd := ⟨by simp [StoredClause.literals], (h.proper key d hd).nodup⟩
  first key d hd := h.count_watchersOf hd (.inl rfl)
  second key d hd := h.count_watchersOf hd (.inr rfl)
  others key d hd slot keys hkeys hfirst hsecond hkey := by
    obtain ⟨l, rfl⟩ := exists_slot_eq slot
    rw [← watchersOf_of_getElem? hkeys] at hkey
    obtain ⟨e, he, hl⟩ := (h.mirrors.mem l key).mp hkey
    rw [hd] at he
    cases he
    rcases hl with rfl | rfl
    · exact hfirst rfl
    · exact hsecond rfl
  stored keys hkeys key hkey := by
    obtain ⟨slot, hslot⟩ := Array.mem_iff_getElem?.mp hkeys
    obtain ⟨l, rfl⟩ := exists_slot_eq slot
    rw [← watchersOf_of_getElem? hslot] at hkey
    obtain ⟨d, hd, -⟩ := (h.mirrors.mem l key).mp hkey
    exact ⟨d, hd⟩

/-! ## In the middle of a visit -/

/-- A loop comes from one state to another without a result. -/
def Leads {σ ρ : Type} (step : σ → σ ⊕ ρ) : σ → σ → Prop :=
  Relation.ReflTransGen fun x y => step x = .inl y

/-- What holds in the middle of a visit holds after the next watcher. -/
theorem Visiting.next_watcher {f : Literal} {a₀ : Assignment} {s₀ : Store} {p q : Progress}
    (h : Visiting f a₀ s₀ p.assignment p.store p.kept p.pending)
    (hq : visitNext f p = .inl q) :
    Visiting f a₀ s₀ q.assignment q.store q.kept q.pending := by
  obtain ⟨a, store, kept, pending⟩ := p
  cases pending with
  | nil => simp [visitNext] at hq
  | cons key pending =>
    obtain ⟨c, hc, -⟩ := h.next
    obtain ⟨hface, hget, hs⟩ := h.face hc
    have hspec := (c.facing f).judge_spec a
    simp only [visitNext, hc] at hq
    cases hj : (c.facing f).judge a with
    | satisfied =>
      rw [hj] at hq hspec
      cases hq
      exact hface.keep hget hs (hface.consistent.valueOf_true.mp hspec)
    | rewatched d =>
      rw [hj] at hq hspec
      cases hq
      exact hface.rewatch hget hs hspec.2
    | unit =>
      rw [hj] at hq hspec
      cases hq
      obtain ⟨hassign, hmem⟩ := hface.assign hget hs hspec.1 hspec.2
      exact hassign.keep hget hs hmem
    | conflict =>
      rw [hj] at hq
      cases hq

/-- The numbers that a visit has still to visit are those of stored clauses. -/
def Progress.Known (p : Progress) : Prop :=
  ∀ key ∈ p.pending, ∃ c, p.store.clauses[key]? = some c

theorem WellFormed.known (h : s.WellFormed) (f : Literal) {p : Progress}
    (hp : Leads (visitNext f) (.start s f) p) : p.Known := by
  have hv : Visiting f s.assignment s.store p.assignment p.store p.kept p.pending := by
    induction hp with
    | refl => exact .start h.assignment h.store f
    | tail _ hq ih => exact ih.next_watcher hq
  intro key hkey
  obtain ⟨c, hc, -⟩ := (hv.mirrors.mem f key).mp (by simp [hkey])
  exact ⟨c, hc⟩

/-- In the course of a call the watchers of a literal's negation are visited, in a state that the
call comes to. -/
inductive Propagates (s : Search) : Call → Search → Literal → Prop
  | literal (l : Literal) : Propagates s (.propagateLiteral l) s l
  | trail {t : Search} {l : Literal} (ht : Leads propagateNext s t)
      (hl : t.assignment.trail[t.head]? = some l) : Propagates s .propagate t l
  | pass {clock : Clock} {s₀ u t : Search} {l : Literal} (hs : s.restart = (none, s₀))
      (hu : Passes clock s₀ u) (hlate : u.countPass.isOverdue clock = false)
      (ht : Leads propagateNext u.countPass t) (hl : t.assignment.trail[t.head]? = some l) :
      Propagates s (.solve clock) t l

theorem WellFormed.propagateNext (h : s.WellFormed) (hn : Search.propagateNext s = .inl t) :
    t.WellFormed := by
  unfold Search.propagateNext at hn
  split at hn
  · cases hn
  · rename_i l hl
    have hw := h.propagateLiteral l
    split at hn
    · cases hn
    · rename_i u hu
      rw [hu] at hw
      cases hn
      exact hw.of_eq rfl rfl rfl

theorem WellFormed.leads (h : s.WellFormed) (hl : Leads Search.propagateNext s t) :
    t.WellFormed := by
  induction hl with
  | refl => exact h
  | tail _ hn ih => exact ih.propagateNext hn

theorem WellFormed.passes (h : s.WellFormed) (hp : Passes clock s t) : t.WellFormed := by
  induction hp with
  | refl => exact h
  | @next t u _ hp ih =>
    have hw := stepInvariant_wellFormed.pass clock ih
    rwa [hp.pass_eq] at hw

theorem WellFormed.restart {s₀ : Search} (h : s.WellFormed) (hs : s.restart = (none, s₀)) :
    s₀.WellFormed := by
  obtain ⟨-, rfl⟩ := eq_of_restart_eq_none hs
  exact stepInvariant_wellFormed.restart s h

theorem WellFormed.of_propagates (h : s.WellFormed) (hp : Propagates s call t l) :
    t.WellFormed := by
  cases hp with
  | literal => exact h
  | trail ht => exact h.leads ht
  | @pass _ _ u _ _ hs hu _ ht =>
    have hw := (h.restart hs).passes hu
    have hcount : u.countPass.WellFormed := hw.of_eq rfl rfl rfl
    exact hcount.leads ht

/-- Whatever calls are made on a new search, and whichever literals are propagated by calls of their
own, the lists of watchers are an index of the stored clauses, and these are the clauses that the
calls have stored, but for the order of their literals. In no visit of watchers, whatever call it is
a part of, is there a number of no clause. -/
theorem indexed_of_reaches (config : Config) (source : Random.Source) (n : Nat)
    (h : Reaches (fun _ _ => True) (withSource config source n) calls s) :
    s.store.Indexed ∧ Stores (registered calls) s ∧
      ∀ call t l, Propagates s call t l →
        ∀ p, Leads (visitNext (-l)) (.start t (-l)) p → p.Known := by
  have hnew := wellFormed_withSource config source n
  have hw := h.wellFormed hnew
  have hstores : Stores [] (withSource config source n) := ⟨rfl, fun key c d hc => by simp at hc⟩
  exact ⟨hw.store.indexed, h.stores hnew hstores,
    fun call t l hp p hlead => (hw.of_propagates hp).known (-l) hlead⟩

/-- A clause that has a literal twice, a tautology, a literal on its own and another clause are added,
two of which are stored. To make the first atom false by a call of its own moves the second clause
to another list, and in the solve that follows the clauses are turned about. -/
theorem indexed_after_moving :
    let new := withSource .default ⟨fun _ => 0, 0⟩ 3
    let calls : List Call := [.addClause [⟨3, true⟩, ⟨1, true⟩, ⟨2, true⟩, ⟨1, true⟩],
      .addClause [⟨2, true⟩, ⟨2, false⟩], .addClause [⟨3, false⟩],
      .addClause [⟨1, true⟩, ⟨2, false⟩, ⟨3, false⟩], .propagateLiteral ⟨1, false⟩,
      .solve fun _ => .zero]
    let s := calls.foldl (fun s call => (s.perform call).2) new
    Reaches (fun _ _ => True) new calls s ∧
      registered calls = [[⟨1, true⟩, ⟨2, true⟩, ⟨3, true⟩], [⟨1, true⟩, ⟨2, false⟩, ⟨3, false⟩]] ∧
      s.store.clauses.toList = [⟨⟨2, true⟩, ⟨1, true⟩, [⟨3, true⟩]⟩,
        ⟨⟨3, false⟩, ⟨2, false⟩, [⟨1, true⟩]⟩] ∧
      s.store.watchers = #[[], [], [0], [], [0], [1], [], [1]] ∧ s.store.Indexed ∧
      Stores (registered calls) s ∧
      ∀ p, Leads (visitNext ⟨2, true⟩) (.start s ⟨2, true⟩) p → p.Known := by
  intro new calls s
  have h : Reaches (fun _ _ => True) new calls s :=
    (((((Reaches.refl.call trivial).call trivial).call trivial).call trivial).call trivial).call
      trivial
  obtain ⟨hindexed, hstores, hknown⟩ := indexed_of_reaches .default ⟨fun _ => 0, 0⟩ 3 h
  exact ⟨h, by decide +kernel, by decide +kernel, by decide +kernel, hindexed, hstores,
    hknown _ s ⟨2, false⟩ (.literal _)⟩

end Clausal.Search
