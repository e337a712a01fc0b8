import Clausal.Proofs.Search.Lexicographic

/-!
# Searches that leave nothing to chance

A search may draw random words even where the outcome is certain, and how many it draws depends on
what has happened so far. Where every outcome is certain the words matter for nothing else: a search
with another seed, and another source of words, gives the same answers and comes to the same states,
but for the seed and the source. Without a time limit the clock does not matter either.
-/

namespace Clausal

/-! ## Certainty -/

/-- The configuration with another seed. -/
def Config.seeded (config : Config) (seed : Nat) : Config :=
  { config with seed := { config.seed with value := seed } }

/-- No outcome depends on chance or on the clock. Phase saving may be on or off, and a zero may have
either sign. -/
structure Config.IsCertain (config : Config) : Prop where
  decisionBias : config.decisionBias.value.magnitude = 0
  polarityBias : config.polarityBias.value.magnitude = 0 ∨ config.polarityBias.value = .one
  timeLimit : config.timeLimit.value = .zero

theorem Config.IsCertain.seeded {config : Config} (h : config.IsCertain) (seed : Nat) :
    (config.seeded seed).IsCertain :=
  ⟨h.decisionBias, h.polarityBias, h.timeLimit⟩

/-- What is certain does not depend on the words. -/
theorem Random.Source.drawBool_eq {p : Binary64} (h : p.magnitude = 0 ∨ p = .one)
    (source source' : Source) : (source.drawBool p).1 = (source'.drawBool p).1 := by
  rcases h with hzero | hone
  · rw [source.drawBool_eq_false hzero, source'.drawBool_eq_false hzero]
  · rw [drawBool, drawBool, if_pos hone, if_pos hone]

namespace Search

variable {s t : Search} {call call' : Call} {calls calls' : List Call}

/-- The state with another seed, and with other random words ahead. -/
def reseed (s : Search) (source : Random.Source) (seed : Nat) : Search :=
  { s with source, config := s.config.seeded seed }

theorem isOverdue_eq_false (h : s.config.IsCertain) (clock : Clock) :
    s.isOverdue clock = false := by
  rw [isOverdue, Config.limit?, if_pos h.timeLimit]
  rfl

/-! ## Steps that draw nothing -/

variable (s) (source : Random.Source) (seed : Nat)

theorem propagateLiteral_reseed (l : Literal) : (s.reseed source seed).propagateLiteral l
    = ((s.propagateLiteral l).1, (s.propagateLiteral l).2.reseed source seed) := rfl

theorem propagate_reseed : (s.reseed source seed).propagate
    = (s.propagate.1, s.propagate.2.reseed source seed) := by
  fun_induction propagate s with
  | case1 s hs => exact propagate_of_end hs
  | case2 s l hs key t ht =>
    refine propagate_of_conflict (s := s.reseed source seed) hs ?_
    rw [propagateLiteral_reseed, ht]
  | case3 s l hs t ht ih =>
    rw [← ih]
    refine propagate_of_next (s := s.reseed source seed) (t := t.reseed source seed) hs ?_
    rw [propagateLiteral_reseed, ht]

theorem closeLevels_reseed (n : Nat) : closeLevels n (s.reseed source seed)
    = (closeLevels n s).reseed source seed := by
  induction n generalizing s with
  | zero => rfl
  | succ n ih =>
    cases hl : s.levels with
    | nil =>
      have hl' : (s.reseed source seed).levels = [] := hl
      rw [closeLevels_of_levels_eq_nil _ hl, closeLevels_of_levels_eq_nil _ hl']
    | cons level below =>
      have hl' : (s.reseed source seed).levels = level :: below := hl
      rw [closeLevels_cons n hl, closeLevels_cons n hl']
      exact ih (s.closed level below)

theorem backjump_reseed (target : Nat) : (s.reseed source seed).backjump target
    = (s.backjump target).reseed source seed :=
  congrArg clampHead (closeLevels_reseed s source seed (s.level - target))

theorem backtrack_reseed : (s.reseed source seed).backtrack
    = (s.backtrack.1, s.backtrack.2.reseed source seed) := by
  suffices h : ∀ (levels : List Level) (s : Search),
      backtrackThrough levels (s.reseed source seed)
        = ((backtrackThrough levels s).1, (backtrackThrough levels s).2.reseed source seed) from
    h s.levels s
  intro levels
  induction levels with
  | nil => exact fun _ => rfl
  | cons level below ih =>
    intro s
    rw [backtrackThrough, backtrackThrough]
    by_cases hf : level.flipped = true
    · rw [if_pos hf, if_pos hf]
      exact ih (s.unwind level.start)
    · rw [if_neg hf, if_neg hf]
      rfl

theorem addCanonical_reseed (c : Clause) : (s.reseed source seed).addCanonical c
    = ((s.addCanonical c).1, (s.addCanonical c).2.reseed source seed) := by
  have hunit : ∀ l, (s.reseed source seed).addUnit l
      = ((s.addUnit l).1, (s.addUnit l).2.reseed source seed) := by
    intro l
    have hvalue : (s.reseed source seed).valueOf l = s.valueOf l := rfl
    rw [addUnit, addUnit, hvalue]
    split <;> rfl
  have hassignment : (s.reseed source seed).assignment = s.assignment := rfl
  rw [addCanonical, addCanonical, hassignment]
  split
  · rfl
  · exact hunit _
  · rfl

theorem addClause_reseed (c : Clause) : (s.reseed source seed).addClause c
    = ((s.addClause c).1, (s.addClause c).2.reseed source seed) := by
  by_cases hz : HasZero c
  · rw [addClause_of_hasZero hz, addClause_of_hasZero hz]
  · rw [addClause_of_not_hasZero hz, addClause_of_not_hasZero hz, backjump_reseed]
    split
    · rfl
    · exact addCanonical_reseed ((s.backjump 0).grow c.canonical.maxAtom) source seed c.canonical

/-! ## Deciding -/

theorem choosePolarity_reseed {s : Search} (h : s.config.IsCertain) (index : Nat) :
    ((s.reseed source seed).choosePolarity index).1 = (s.choosePolarity index).1 := by
  have hsaved : (s.reseed source seed).savedValue index = s.savedValue index := rfl
  rw [choosePolarity, choosePolarity, hsaved]
  cases s.savedValue index with
  | none => exact Random.Source.drawBool_eq h.polarityBias source s.source
  | some polarity => rfl

/-- The decision for an atom that is chosen without a draw. -/
theorem branch_of_chooseAtom {s : Search} {index : Nat}
    (h : s.chooseAtom = (some index, s.source)) : s.branch
      = (some ⟨index, (s.choosePolarity index).1⟩,
        { s with
          source := (s.choosePolarity index).2
          counters := { s.counters with decisions := s.counters.decisions + 1 }
        }.openLevel ⟨index, (s.choosePolarity index).1⟩ false) := by
  rw [branch, h]

/-- How many words are drawn may differ, but not what is decided. -/
theorem branch_reseed {s : Search} (h : s.config.IsCertain) : ∃ source',
    (s.reseed source seed).branch = (s.branch.1, s.branch.2.reseed source' seed) := by
  have hchoose : s.chooseAtom = (s.assignment.firstOpen?, s.source) :=
    if_neg (Binary64.not_zero_lt h.decisionBias)
  have hchoose' : (s.reseed source seed).chooseAtom = (s.assignment.firstOpen?, source) :=
    if_neg (Binary64.not_zero_lt h.decisionBias)
  cases hfirst : s.assignment.firstOpen? with
  | none =>
    rw [hfirst] at hchoose hchoose'
    refine ⟨source, ?_⟩
    rw [branch, branch, hchoose, hchoose']
    rfl
  | some index =>
    rw [hfirst] at hchoose hchoose'
    refine ⟨((s.reseed source seed).choosePolarity index).2, ?_⟩
    rw [branch_of_chooseAtom hchoose, branch_of_chooseAtom hchoose',
      choosePolarity_reseed source seed h]
    rfl

/-! ## Solving -/

theorem pass_reseed {s : Search} (h : s.config.IsCertain) (clock clock' : Clock) : ∃ source',
    (s.reseed source seed).pass clock'
      = ((s.pass clock).1, (s.pass clock).2.reseed source' seed) := by
  have hconfig : s.countPass.propagate.2.config.IsCertain := by
    rw [(keeps_propagate s.countPass).config]
    exact h
  have hpropagate := propagate_reseed s.countPass source seed
  have htime : (s.reseed source seed).countPass.isOverdue clock' = false :=
    isOverdue_eq_false (h.seeded seed) clock'
  have hpass := pass_spec clock s
  generalize s.pass clock = r at hpass ⊢
  obtain ⟨report, u⟩ := r
  change Pass clock s report u at hpass
  cases hpass with
  | late ht =>
    rw [isOverdue_eq_false (s := s.countPass) h] at ht
    cases ht
  | @turned _ t _ ht hp hb =>
    rw [hp] at hpropagate
    have hback := backtrack_reseed t.countConflict source seed
    rw [hb] at hback
    exact ⟨source, (Pass.turned htime hpropagate hback).pass_eq⟩
  | @exhausted _ t _ ht hp hb =>
    rw [hp] at hpropagate
    have hback := backtrack_reseed t.countConflict source seed
    rw [hb] at hback
    exact ⟨source, (Pass.exhausted htime hpropagate hback).pass_eq⟩
  | @decided t _ _ ht hp hb =>
    rw [hp] at hpropagate hconfig
    obtain ⟨source', hbranch⟩ := branch_reseed source seed hconfig
    rw [hb] at hbranch
    exact ⟨source', (Pass.decided htime hpropagate hbranch).pass_eq⟩
  | @complete t _ ht hp hb =>
    rw [hp] at hpropagate hconfig
    obtain ⟨source', hbranch⟩ := branch_reseed source seed hconfig
    rw [hb] at hbranch
    exact ⟨source', (Pass.complete htime hpropagate hbranch).pass_eq⟩

theorem run_reseed {s : Search} (h : s.config.IsCertain) (clock clock' : Clock) : ∃ source',
    run clock' (s.reseed source seed)
      = ((run clock s).1, (run clock s).2.reseed source' seed) := by
  fun_induction run clock s generalizing source with
  | case1 s hdepth report t ht =>
    obtain ⟨source', hpass⟩ := pass_reseed source seed h clock clock'
    rw [ht] at hpass
    exact ⟨source', run_of_some (s := s.reseed source seed) hdepth hpass⟩
  | case2 s hdepth t ht ih =>
    obtain ⟨source', hpass⟩ := pass_reseed source seed h clock clock'
    have hspec := pass_spec clock s
    rw [ht] at hpass hspec
    rw [run_of_none (s := s.reseed source seed) hdepth hpass]
    exact ih source' (hspec.config_eq ▸ h)
  | case3 s hdepth =>
    refine ⟨source, ?_⟩
    rw [run]
    exact dif_neg hdepth

theorem solve_reseed {s : Search} (h : s.config.IsCertain) (clock clock' : Clock) : ∃ source',
    (s.reseed source seed).solve clock'
      = ((s.solve clock).1, (s.solve clock).2.reseed source' seed) := by
  cases hi : s.inconsistent with
  | true =>
    refine ⟨source, ?_⟩
    rw [solve_of_inconsistent hi]
    exact solve_of_inconsistent hi
  | false =>
    have hi' : (s.reseed source seed).inconsistent = false := hi
    rw [solve_of_consistent hi, solve_of_consistent hi', backjump_reseed]
    refine run_reseed source seed (s := { s.backjump 0 with head := 0 }) ?_ clock clock'
    show (s.backjump 0).config.IsCertain
    rw [(keeps_backjump 0 s).config]
    exact h

/-! ## Calls -/

/-- The calls are the same, but for what the clock shows to a solve. -/
inductive Call.Same : Call → Call → Prop
  | refl (call : Call) : Same call call
  | solve (clock clock' : Clock) : Same (.solve clock) (.solve clock')

theorem perform_reseed {s : Search} (h : s.config.IsCertain) (hcall : Call.Same call call') :
    ∃ source', (s.reseed source seed).perform call'
      = ((s.perform call).1, (s.perform call).2.reseed source' seed) := by
  have hsolve : ∀ clock clock', ∃ source', (s.reseed source seed).perform (.solve clock')
      = ((s.perform (.solve clock)).1, (s.perform (.solve clock)).2.reseed source' seed) := by
    intro clock clock'
    obtain ⟨source', heq⟩ := solve_reseed source seed h clock clock'
    exact ⟨source', by rw [perform, perform, heq]⟩
  cases hcall with
  | solve clock clock' => exact hsolve clock clock'
  | refl call =>
    cases call with
    | addClause c =>
      exact ⟨source, by rw [perform, perform, addClause_reseed]⟩
    | solve clock => exact hsolve clock clock
    | propagate => exact ⟨source, by rw [perform, perform, propagate_reseed]⟩
    | propagateLiteral l => exact ⟨source, rfl⟩
    | branch =>
      obtain ⟨source', heq⟩ := branch_reseed source seed h
      exact ⟨source', by rw [perform, perform, heq]⟩
    | backtrack => exact ⟨source, by rw [perform, perform, backtrack_reseed]⟩
    | backjump target => exact ⟨source, by rw [perform, perform, backjump_reseed]⟩

/-! ## Every history -/

/-- What calls in turn answer, each with the state it leaves. -/
def transcript (s : Search) : List Call → List (Answer × Search)
  | [] => []
  | call :: calls => s.perform call :: transcript (s.perform call).2 calls

/-- States agree in all but the seed and the random words ahead. -/
structure SameButSeed (s t : Search) : Prop where
  config : t.config = s.config.seeded t.config.seed.value
  counters : t.counters = s.counters
  values : t.assignment.values = s.assignment.values
  saved : t.assignment.saved = s.assignment.saved
  trail : t.assignment.trail = s.assignment.trail
  clauses : t.store.clauses = s.store.clauses
  watchers : t.store.watchers = s.store.watchers
  head : t.head = s.head
  levels : t.levels = s.levels
  inconsistent : t.inconsistent = s.inconsistent

theorem sameButSeed_reseed (s : Search) (source : Random.Source) (seed : Nat) :
    SameButSeed s (s.reseed source seed) :=
  ⟨rfl, rfl, rfl, rfl, rfl, rfl, rfl, rfl, rfl, rfl⟩

theorem transcript_reseed {s : Search} (h : s.config.IsCertain)
    (hcalls : List.Forall₂ Call.Same calls calls') :
    List.Forall₂ (fun r r' => r'.1 = r.1 ∧ SameButSeed r.2 r'.2) (s.transcript calls)
      ((s.reseed source seed).transcript calls') := by
  induction hcalls generalizing s source with
  | nil => exact .nil
  | @cons call call' calls calls' hcall hcalls ih =>
    obtain ⟨source', heq⟩ := perform_reseed source seed h hcall
    rw [transcript, transcript, heq]
    refine .cons ⟨rfl, sameButSeed_reseed _ source' seed⟩ (ih source' ?_)
    rw [(persists_perform s call).config]
    exact h

/-- Whatever calls are made on new searches that leave nothing to chance and differ in their seeds,
the answers are the same and the states agree after every call in all but the seed and the random
words ahead. -/
theorem transcript_new_eq (config : Config) (h : config.IsCertain) (seed seed' n : Nat)
    (hcalls : List.Forall₂ Call.Same calls calls') :
    List.Forall₂ (fun r r' => r'.1 = r.1 ∧ SameButSeed r.2 r'.2)
      ((new (config.seeded seed) n).transcript calls)
      ((new (config.seeded seed') n).transcript calls') :=
  transcript_reseed (Random.Source.ofSeed seed') seed' (h.seeded seed) hcalls

/-- With the seeds 1 and 2, where decisions make atoms true and the clocks differ. -/
theorem transcript_new_eq_of_two_seeds :
    let config := { Config.default with
      polarityBias := { Config.default.polarityBias with value := .one } }
    let calls : List Call := [.addClause [⟨1, false⟩, ⟨2, false⟩], .branch,
      .solve fun _ => .zero]
    let calls' : List Call := [.addClause [⟨1, false⟩, ⟨2, false⟩], .branch,
      .solve fun _ => .greatest]
    config.IsCertain ∧ List.Forall₂ Call.Same calls calls' ∧
      ((new (config.seeded 1) 2).transcript calls).map (fun r => r.2.assignment.trail.toList)
        = [[], [⟨1, true⟩], [⟨1, true⟩, ⟨2, false⟩]] ∧
      List.Forall₂ (fun r r' => r'.1 = r.1 ∧ SameButSeed r.2 r'.2)
        ((new (config.seeded 1) 2).transcript calls)
        ((new (config.seeded 2) 2).transcript calls') := by
  intro config calls calls'
  have hconfig : config.IsCertain := ⟨rfl, .inr rfl, rfl⟩
  have hcalls : List.Forall₂ Call.Same calls calls' :=
    .cons (.refl _) (.cons (.refl _) (.cons (.solve _ _) .nil))
  exact ⟨hconfig, hcalls, by decide +kernel, transcript_new_eq config hconfig 1 2 2 hcalls⟩

end Search

end Clausal
