import Clausal.Proofs.Search.Calls
import Mathlib.Algebra.GroupWithZero.Nat

/-!
# Loops come to an end

A loop takes a step again and again until it has a result. `Ends` says so of a step alone, without
a measure or any other guard, and counts the steps. The search has three loops, one in another:
visits of watchers, propagation and passes. Each of them ends, whatever the clock and the random
words are.

The passes are bounded by the binary tree of decisions. A search with a level for each of `n` atoms
at most has a tree of height `n`, and every pass is at a place of its own in it.
-/

namespace Clausal.Search

variable {s t : Search} {cs : List Clause} {clock : Clock} {calls : List Call}

/-- From the state `x` a loop comes to the result `y` with its step number `n`. -/
inductive Ends {σ ρ : Type} (step : σ → σ ⊕ ρ) : (n : Nat) → (x : σ) → (y : ρ) → Prop
  | last {x : σ} {y : ρ} (h : step x = .inr y) : Ends step 1 x y
  | next {n : Nat} {x x' : σ} {y : ρ} (h : step x = .inl x') (hrest : Ends step n x' y) :
      Ends step (n + 1) x y

/-! ## Visits -/

/-- A visit in progress: the watchers `kept`, in reverse, have been visited and stay, and those
`pending` are still to come. -/
structure Progress where
  assignment : Assignment
  store : Store
  kept : List Nat
  pending : List Nat

/-- The visit of all watchers of a literal, before its first step. -/
def Progress.start (s : Search) (falsified : Literal) : Progress :=
  ⟨s.assignment, s.store, [], s.store.watchersOf falsified⟩

/-- Visits the next watcher. -/
def visitNext (falsified : Literal) (p : Progress) : Progress ⊕ Visit :=
  match p.pending with
  | [] => .inr ⟨none, p.kept.reverse, p.assignment, p.store⟩
  | key :: pending =>
    match p.store.clauses[key]? with
    | none => .inl { p with pending := lastToFront pending }
    | some c =>
      let c := c.facing falsified
      let store := p.store.setClause key c
      match c.judge p.assignment with
      | .satisfied => .inl ⟨p.assignment, store, key :: p.kept, pending⟩
      | .rewatched c =>
        .inl ⟨p.assignment, (store.setClause key c).watch c.second key, p.kept,
          lastToFront pending⟩
      | .unit => .inl ⟨p.assignment.assign c.first, store, key :: p.kept, pending⟩
      | .conflict => .inr ⟨some key, p.kept.reverse ++ key :: pending, p.assignment, store⟩

/-- A visit ends, although watchers leave the list on the way: each step leaves one less to come. -/
theorem ends_visit (falsified : Literal) (a : Assignment) (store : Store)
    (kept pending : List Nat) :
    ∃ k, k ≤ pending.length + 1 ∧
      Ends (visitNext falsified) k ⟨a, store, kept, pending⟩
        (visit falsified a store kept pending) := by
  fun_induction visit falsified a store kept pending with
  | case1 a store kept => exact ⟨1, by simp, .last rfl⟩
  | case2 a store kept key pending hc ih =>
    obtain ⟨k, hk, hends⟩ := ih
    rw [length_lastToFront] at hk
    exact ⟨k + 1, by simpa using hk, .next (by simp [visitNext, hc]) hends⟩
  | case3 a store kept key pending c hc d store' hj ih
  | case5 a store kept key pending c hc d store' hj ih =>
    obtain ⟨k, hk, hends⟩ := ih
    exact ⟨k + 1, by simpa using hk, .next (by simp [visitNext, hc, hj, d, store']) hends⟩
  | case4 a store kept key pending c hc d store' e hj ih =>
    obtain ⟨k, hk, hends⟩ := ih
    rw [length_lastToFront] at hk
    exact ⟨k + 1, by simpa using hk, .next (by simp [visitNext, hc, hj, d, store']) hends⟩
  | case6 a store kept key pending c hc d store' hj =>
    exact ⟨1, by simp, .last (by simp [visitNext, hc, hj, d, store'])⟩

/-- Propagating a literal ends, with one step for each of its watchers at most and one more. -/
theorem ends_propagateLiteral (s : Search) (l : Literal) :
    ∃ k v, k ≤ (s.store.watchersOf (-l)).length + 1 ∧
      Ends (visitNext (-l)) k (.start s (-l)) v ∧
      s.propagateLiteral l = (v.conflict?,
        { s with assignment := v.assignment, store := v.store.setWatchers (-l) v.watchers }) := by
  obtain ⟨k, hk, hends⟩ := ends_visit (-l) s.assignment s.store [] (s.store.watchersOf (-l))
  exact ⟨k, _, hk, hends, rfl⟩

/-! ## Propagation -/

/-- Propagates the next literal of the trail. -/
def propagateNext (s : Search) : Search ⊕ (Option Nat × Search) :=
  match s.assignment.trail[s.head]? with
  | none => .inr (none, s)
  | some l =>
    match s.propagateLiteral l with
    | (some key, t) => .inr (some key, t)
    | (none, t) => .inl { t with head := t.head + 1 }

/-- Propagation ends, although the trail grows on the way: it never has more literals than there are
atoms. -/
theorem WellFormed.ends_propagate (h : s.WellFormed) :
    ∃ k, k ≤ s.atomCount - s.head + 1 ∧ Ends propagateNext k s s.propagate := by
  fun_induction propagate s with
  | case1 s hl => exact ⟨1, by omega, .last (by simp [propagateNext, hl])⟩
  | case2 s l hl key t ht => exact ⟨1, by omega, .last (by simp [propagateNext, hl, ht])⟩
  | case3 s l hl t ht ih =>
    have hw := h.propagateLiteral l
    have hcount := atomCount_propagateLiteral s l
    rw [ht] at hw hcount
    obtain ⟨k, hk, hends⟩ := ih (hw.of_eq rfl rfl rfl)
    refine ⟨k + 1, ?_, .next (by simp [propagateNext, hl, ht]) hends⟩
    have hlt : s.head < s.atomCount :=
      Nat.lt_of_lt_of_le (Array.getElem?_eq_some_iff.mp hl).1 h.assignment.size_trail_le
    have hhead : t.head = s.head := congrArg (fun r => r.2.head) ht ▸ rfl
    have hnext : ({ t with head := t.head + 1 } : Search).atomCount = s.atomCount := hcount
    rw [hnext] at hk
    simp only [hhead] at hk
    omega

/-! ## Passes -/

/-- Goes through the next pass. -/
def passNext (clock : Clock) (s : Search) : Search ⊕ (Report × Search) :=
  match s.pass clock with
  | (some report, t) => .inr (report, t)
  | (none, t) => .inl t

theorem pass_of_passNext_eq_inl (h : passNext clock s = .inl t) : Pass clock s none t := by
  have hpass := pass_spec clock s
  unfold passNext at h
  split at h
  · cases h
  · rename_i u hu
    cases h
    rwa [hu] at hpass

theorem pass_of_passNext_eq_inr {r : Report × Search} (h : passNext clock s = .inr r) :
    Pass clock s (some r.1) r.2 := by
  have hpass := pass_spec clock s
  unfold passNext at h
  split at h
  · rename_i report u hu
    cases h
    rwa [hu] at hpass
  · cases h

/-- Each pass counts itself, so the passes of a run are the ones counted. -/
theorem Ends.iterations_eq {k : Nat} {r : Report × Search} (h : Ends (passNext clock) k s r) :
    r.2.counters.iterations = s.counters.iterations + k := by
  induction h with
  | last h => exact (pass_of_passNext_eq_inr h).iterations_eq
  | next h _ ih =>
    rw [ih, (pass_of_passNext_eq_inl h).iterations_eq]
    omega

/-- The passes that are left to a search over `n` atoms with these open levels, one for each place
ahead. Over no atoms there is one place, the root. -/
def passesLeft : (n : Nat) → List Level → Nat
  | 0, _ => 1
  | n + 1, levels => placesAhead n levels

theorem passesLeft_pos (n : Nat) (levels : List Level) : 0 < passesLeft n levels := by
  cases n with
  | zero => exact Nat.one_pos
  | succ n => exact Nat.add_pos_left (treeSize_pos _) _

theorem treeSize_eq (height : Nat) : treeSize height = 2 ^ (height + 1) - 1 := by
  induction height with
  | zero => rfl
  | succ height ih =>
    have hpos : 0 < 2 ^ (height + 1) := Nat.two_pow_pos _
    rw [treeSize, ih, Nat.pow_succ 2 (height + 1)]
    omega

theorem passesLeft_nil (n : Nat) : passesLeft n [] = 2 ^ (n + 1) - 1 := by
  cases n with
  | zero => rfl
  | succ n => exact treeSize_eq (n + 1)

/-- A pass without an answer uses up a place. -/
theorem passesLeft_pass (h : s.pass clock = (none, t)) (ht : t.WellFormed) :
    passesLeft t.atomCount t.levels < passesLeft s.atomCount s.levels := by
  have hcount : t.atomCount = s.atomCount := by
    rw [← atomCount_pass clock s, h]
  have hdepth : t.levels.length ≤ s.atomCount := hcount ▸ ht.level_le
  rw [hcount]
  cases hn : s.atomCount with
  -- over no atoms no level can be open, and after such a pass one is
  | zero =>
    rw [hn] at hdepth
    rcases levels_pass h with ⟨_, _, _, _, -, -, hs, -⟩ | ⟨_, hs, -⟩
    · simp [hs] at hdepth
    · simp [hs] at hdepth
  | succ n =>
    rw [hn] at hdepth
    rcases levels_pass h with ⟨above, level, below, level', ha, hf, hs, hf'⟩ | ⟨level, hs, hf⟩
    · rw [hs, ha]
      exact placesAhead_flip n hf hf'
    · rw [hs] at hdepth ⊢
      exact placesAhead_open (Nat.le_of_succ_le_succ hdepth) hf

/-- The passes end, with no more of them than there are places. -/
theorem Searching.ends_run (h : Searching cs s) (clock : Clock) :
    ∃ k, k ≤ passesLeft s.atomCount s.levels ∧ Ends (passNext clock) k s (Search.run clock s) := by
  fun_induction Search.run clock s with
  | case1 s hdepth report t ht =>
    exact ⟨1, passesLeft_pos _ _, .last (by simp [passNext, ht])⟩
  | case2 s hdepth t ht ih =>
    have hpass := pass_spec clock s
    rw [ht] at hpass
    have hnext := h.next hpass
    obtain ⟨k, hk, hends⟩ := ih hnext
    have hlt := passesLeft_pass ht hnext.represents.wellFormed
    exact ⟨k + 1, by omega, .next (by simp [passNext, ht]) hends⟩
  | case3 s hdepth => exact absurd h.represents.wellFormed.level_le hdepth

/-! ## Every solve -/

/-- Whatever calls were made before it, a solve either answers at once or ends after passes of
which there are at most `2 ^ (n + 1) - 1` over `n` atoms, and they are the passes counted. The
propagation in each pass ends, and so does each visit of watchers. -/
theorem solve_ends_of_reaches (config : Config) (source : Random.Source) (n : Nat)
    (h : Reaches (fun t call => call.IsSound t) (withSource config source n) calls s)
    (clock : Clock) :
    ∃ k, k ≤ 2 ^ (s.atomCount + 1) - 1 ∧
      (s.solve clock).2.counters.iterations = s.counters.iterations + k ∧
      (s.restart = (some .unsatisfiable, s) ∧ s.solve clock = (.unsatisfiable, s) ∨
        ∃ s₀, s.restart = (none, s₀) ∧ Ends (passNext clock) k s₀ (s.solve clock) ∧
          (∀ t, Passes clock s₀ t →
            ∃ j, j ≤ s.atomCount + 1 ∧ Ends propagateNext j t.countPass t.countPass.propagate) ∧
          ∀ (u : Search) (l : Literal),
            ∃ j v, j ≤ (u.store.watchersOf (-l)).length + 1 ∧
              Ends (visitNext (-l)) j (.start u (-l)) v ∧
              u.propagateLiteral l = (v.conflict?, { u with
                assignment := v.assignment, store := v.store.setWatchers (-l) v.watchers })) := by
  have hrep := h.represents (represents_withSource config source n)
  cases hi : s.inconsistent with
  | true =>
    have hrestart : s.restart = (some .unsatisfiable, s) := by
      unfold restart
      rw [hi]
      rfl
    have hsolve : s.solve clock = (.unsatisfiable, s) := solve_of_inconsistent hi
    exact ⟨0, Nat.zero_le _, congrArg (fun r => r.2.counters.iterations) hsolve,
      .inl ⟨hrestart, hsolve⟩⟩
  | false =>
    have hrestart : s.restart = (none, { s.backjump 0 with head := 0 }) := by
      unfold restart
      rw [hi]
      rfl
    have hs := Searching.restart hrep hi
    have hcount : ({ s.backjump 0 with head := 0 } : Search).atomCount = s.atomCount :=
      atomCount_backjump 0 s
    have hiterations : (s.backjump 0).counters.iterations = s.counters.iterations :=
      congrArg Counters.iterations (counters_closeLevels _ s)
    have hlevels : (s.backjump 0).levels = [] := levels_backjump_zero s
    obtain ⟨k, hk, hends⟩ := hs.ends_run clock
    rw [← solve_of_consistent hi] at hends
    refine ⟨k, ?_, hends.iterations_eq.trans (congrArg (· + k) hiterations),
      .inr ⟨_, hrestart, hends, fun t ht => ?_, fun u l => ends_propagateLiteral u l⟩⟩
    · rw [hcount] at hk
      simp only [hlevels] at hk
      rwa [passesLeft_nil] at hk
    · have hw := (ht.searching hs).countPass.represents.wellFormed
      obtain ⟨j, hj, hpropagate⟩ := hw.ends_propagate
      have htcount : t.countPass.atomCount = s.atomCount := (ht.atomCount_eq).trans hcount
      exact ⟨j, by omega, hpropagate⟩

/-- Two atoms of which one is to be true: the first atom is decided, and the second pass answers. -/
theorem solve_ends_after_two_passes :
    let new := withSource .default ⟨fun _ => 0, 0⟩ 2
    let s := (new.perform (.addClause [⟨1, true⟩, ⟨2, true⟩])).2
    let clock : Clock := fun _ => .zero
    Reaches (fun t call => call.IsSound t) new [.addClause [⟨1, true⟩, ⟨2, true⟩]] s ∧
      s.atomCount = 2 ∧ (s.solve clock).2.counters.iterations = 2 ∧
      ∃ s₀, s.restart = (none, s₀) ∧ Ends (passNext clock) 2 s₀ (s.solve clock) := by
  intro new s clock
  have hr : Reaches (fun t call => call.IsSound t) new [.addClause [⟨1, true⟩, ⟨2, true⟩]] s :=
    Reaches.refl.call trivial
  have htwo : (s.solve clock).2.counters.iterations = 2 := by decide +kernel
  obtain ⟨k, -, hk, hends⟩ := solve_ends_of_reaches .default ⟨fun _ => 0, 0⟩ 2 hr clock
  have hzero : s.counters.iterations = 0 := rfl
  obtain rfl : k = 2 := by omega
  refine ⟨hr, rfl, htwo, ?_⟩
  rcases hends with ⟨hrestart, -⟩ | ⟨s₀, hrestart, hends, -⟩
  · cases hrestart
  · exact ⟨s₀, hrestart, hends⟩

end Clausal.Search
