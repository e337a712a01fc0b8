import Clausal.Proofs.Search.Solve

/-!
# Calls

A search is used by calls in any order: clauses are added, solves are asked for, and the steps of a
solve may be taken one by one. Whatever the order, a state goes on to stand for the clauses given
so far, every solve is right about them, and what the state keeps of them says all that they say.
-/

namespace Clausal.Search

/-- A call on a search. -/
inductive Call where
  | addClause (c : Clause)
  | solve (clock : Clock)
  | propagate
  | propagateLiteral (l : Literal)
  | branch
  | backtrack
  | backjump (target : Nat)

/-- What a call answers. -/
inductive Answer where
  | added (result : Except OracleError Unit)
  | solved (report : Report)
  /-- The number of a clause that is false, if one was met. -/
  | propagated (conflict? : Option Nat)
  /-- The literal decided, if an atom was without a value. -/
  | decided (l? : Option Literal)
  /-- Whether a level was turned round. -/
  | backtracked (turned : Bool)
  | backjumped

/-- Performs a call. -/
def perform (s : Search) : Call → Answer × Search
  | .addClause c => let (result, s) := s.addClause c; (.added result, s)
  | .solve clock => let (report, s) := s.solve clock; (.solved report, s)
  | .propagate => let (conflict?, s) := s.propagate; (.propagated conflict?, s)
  | .propagateLiteral l => let (conflict?, s) := s.propagateLiteral l; (.propagated conflict?, s)
  | .branch => let (l?, s) := s.branch; (.decided l?, s)
  | .backtrack => let (turned, s) := s.backtrack; (.backtracked turned, s)
  | .backjump target => (.backjumped, s.backjump target)

/-- The clause that a call gives, unless it is refused for a zero. -/
def Call.given : Call → List Clause
  | .addClause c => if HasZero c then [] else [c]
  | _ => []

/-- The clauses that calls give. -/
def given (calls : List Call) : List Clause := calls.flatMap Call.given

/-- A literal that is propagated by a call of its own is true. -/
def Call.IsSound (s : Search) : Call → Prop
  | .propagateLiteral l => s.valueOf l = some true
  | _ => True

/-- The states that calls lead to, each call being one that `ok` admits in its state. -/
inductive Reaches (ok : Search → Call → Prop) (s : Search) : List Call → Search → Prop
  | refl : Reaches ok s [] s
  | call {calls : List Call} {t : Search} {call : Call} (h : Reaches ok s calls t)
      (hok : ok t call) : Reaches ok s (calls ++ [call]) (t.perform call).2

variable {s t : Search} {cs : List Clause} {c : Clause} {call : Call} {calls : List Call}
  {ok : Search → Call → Prop}

theorem given_append (calls : List Call) (call : Call) :
    given (calls ++ [call]) = given calls ++ call.given := by
  simp [given]

/-! ## What the state stands for -/

theorem Represents.append_nil (h : Represents cs s) : Represents (cs ++ []) s := by
  rwa [List.append_nil]

theorem Represents.perform (h : Represents cs s) (hok : call.IsSound s) :
    Represents (cs ++ call.given) (s.perform call).2 := by
  cases call with
  | addClause c =>
    show Represents (cs ++ if HasZero c then [] else [c]) (s.addClause c).2
    by_cases hz : HasZero c
    · rw [if_pos hz, addClause_of_hasZero hz]
      exact h.append_nil
    · rw [if_neg hz]
      exact h.addClause hz
  | solve clock => exact (h.solve clock).1.append_nil
  | propagate => exact h.propagate.append_nil
  | propagateLiteral l =>
    exact (h.propagateLiteral (h.wellFormed.assignment.valueOf_true.mp hok)).append_nil
  | branch => exact h.branch.append_nil
  | backtrack => exact h.backtrack.append_nil
  | backjump target => exact (h.backjump target).append_nil

theorem Reaches.represents (hr : Reaches (fun t call => call.IsSound t) s calls t)
    (h : Represents cs s) : Represents (cs ++ given calls) t := by
  induction hr with
  | refl => exact h.append_nil
  | call _ hok ih =>
    rw [given_append, ← List.append_assoc]
    exact ih.perform hok

/-! ## What stays -/

theorem persists_perform (s : Search) (call : Call) : Persists s (s.perform call).2 := by
  cases call with
  | addClause c => exact persists_addClause s c
  | solve clock =>
    refine ⟨config_solve clock s, fun hi => ?_⟩
    show (s.solve clock).2.inconsistent = true
    rw [solve_of_inconsistent hi, hi]
  | propagate => exact (keeps_propagate s).persists
  | propagateLiteral l => exact ⟨rfl, id⟩
  | branch => exact (keeps_branch s).persists
  | backtrack => exact (keeps_backtrack s).persists
  | backjump target => exact (keeps_backjump target s).persists

theorem Reaches.persists (hr : Reaches ok s calls t) : Persists s t := by
  induction hr with
  | refl => exact ⟨rfl, id⟩
  | @call _ t call _ _ ih =>
    have h := persists_perform t call
    exact ⟨h.config.trans ih.config, fun hi => h.inconsistent (ih.inconsistent hi)⟩

/-! ## Atoms -/

theorem Represents.atomCount_perform_le_iff (h : Represents cs s) (call : Call) (n : Nat) :
    (s.perform call).2.atomCount ≤ n ↔
      s.atomCount ≤ n ∧ ∀ c ∈ call.given, c.canonical.hasComplement = false → c.maxAtom ≤ n := by
  -- all calls but one give no clause and leave the atoms as they are
  have hkeep : ∀ {t : Search}, t.atomCount = s.atomCount →
      (t.atomCount ≤ n ↔ s.atomCount ≤ n ∧
        ∀ c ∈ ([] : List Clause), c.canonical.hasComplement = false → c.maxAtom ≤ n) := by
    intro t ht
    simp [ht]
  cases call with
  | addClause c =>
    show (s.addClause c).2.atomCount ≤ n ↔
      s.atomCount ≤ n ∧ ∀ d ∈ if HasZero c then [] else [c], _
    by_cases hz : HasZero c
    · rw [if_pos hz]
      exact hkeep (by rw [addClause_of_hasZero hz])
    · rw [if_neg hz, h.atomCount_addClause hz]
      cases ht : c.canonical.hasComplement with
      | true => simp [ht]
      | false => simp only [ht, Bool.false_eq_true, ↓reduceIte, Nat.max_le, List.mem_singleton,
          forall_eq, forall_const]
  | solve clock => exact hkeep (atomCount_solve clock s)
  | propagate => exact hkeep (atomCount_propagate s)
  | propagateLiteral l => exact hkeep (atomCount_propagateLiteral s l)
  | branch => exact hkeep (atomCount_branch s)
  | backtrack => exact hkeep (atomCount_backtrackThrough s.levels s)
  | backjump target => exact hkeep (atomCount_backjump target s)

/-- The atoms in use are those that a search begins with and those of the clauses given since, but
for tautologies. -/
theorem Reaches.atomCount_le_iff (hr : Reaches (fun t call => call.IsSound t) s calls t)
    (h : Represents cs s) (n : Nat) :
    t.atomCount ≤ n ↔ s.atomCount ≤ n ∧
      ∀ c ∈ given calls, c.canonical.hasComplement = false → c.maxAtom ≤ n := by
  induction hr with
  | refl => simp [given]
  | @call calls t call hr _ ih =>
    rw [(hr.represents h).atomCount_perform_le_iff, ih, given_append, and_assoc]
    simp only [List.forall_mem_append]

/-! ## What is kept of the clauses -/

/-- The clause that a call gives, unless the answer refuses it for a zero. -/
def Call.accepted : Call → Answer → List Clause
  | .addClause _, .added (.error .zeroLiteral) => []
  | .addClause c, _ => [c]
  | _, _ => []

/-- The clauses that calls in turn give and that are not refused. -/
def accepted (s : Search) : List Call → List Clause
  | [] => []
  | call :: calls => call.accepted (s.perform call).1 ++ accepted (s.perform call).2 calls

/-- The clauses refused are those with a zero. -/
theorem accepted_perform (s : Search) (call : Call) :
    call.accepted (s.perform call).1 = call.given := by
  cases call with
  | addClause c =>
    show Call.accepted (.addClause c) (.added (s.addClause c).1) = if HasZero c then [] else [c]
    by_cases hz : HasZero c
    · rw [if_pos hz, addClause_of_hasZero hz]
      rfl
    · have hspec := addClause_spec (s := s) hz
      rw [if_neg hz]
      generalize s.addClause c = r at hspec
      obtain ⟨answer, t⟩ := r
      cases hspec with
      | taken h => rfl
      | contradicting hconfig hmark => rfl
  | solve clock => rfl
  | propagate => rfl
  | propagateLiteral l => rfl
  | branch => rfl
  | backtrack => rfl
  | backjump target => rfl

theorem accepted_eq_given (s : Search) (calls : List Call) : accepted s calls = given calls := by
  induction calls generalizing s with
  | nil => rfl
  | cons call calls ih =>
    rw [accepted, accepted_perform, ih]
    rfl

/-! ## Every history -/

/-- Whatever calls are made on a new search, no clause is lost and none is invented: a valuation
satisfies the clauses accepted so far exactly if the state is not marked inconsistent and the
valuation satisfies every stored clause and every literal of the trail below the first level. -/
theorem satisfiedAll_accepted_iff_of_reaches (config : Config) (source : Random.Source) (n : Nat)
    (h : Reaches (fun t call => call.IsSound t) (withSource config source n) calls s)
    (v : Nat → Bool) :
    Clause.SatisfiedAll v (accepted (withSource config source n) calls) ↔
      s.inconsistent = false ∧ StoreTrue v s ∧ GroundTrue v s := by
  rw [accepted_eq_given]
  exact (h.represents (represents_withSource config source n)).satisfiedAll_iff

/-- A unit clause is on the trail alone, a tautology and a clause with a zero are nowhere, and the
decision that is open says nothing of the clauses. -/
theorem satisfiedAll_accepted_iff_after_decision :
    let new := withSource .default ⟨fun _ => 0, 0⟩ 3
    let calls : List Call := [.addClause [⟨1, true⟩], .addClause [⟨2, true⟩, ⟨2, false⟩],
      .addClause [⟨0, false⟩], .addClause [⟨2, true⟩, ⟨3, true⟩], .branch]
    ∃ s, Reaches (fun t call => call.IsSound t) new calls s ∧
      accepted new calls = [[⟨1, true⟩], [⟨2, true⟩, ⟨2, false⟩], [⟨2, true⟩, ⟨3, true⟩]] ∧
      s.store.clauses.toList = [⟨⟨2, true⟩, ⟨3, true⟩, []⟩] ∧
      s.assignment.trail.toList = [⟨1, true⟩, ⟨2, false⟩] ∧ s.levels.map Level.start = [1] ∧
      ∀ v, Clause.SatisfiedAll v (accepted new calls) ↔
        s.inconsistent = false ∧ StoreTrue v s ∧ GroundTrue v s := by
  intro new calls
  have hr : Reaches (fun t call => call.IsSound t) new calls _ :=
    ((((Reaches.refl.call trivial).call trivial).call trivial).call trivial).call trivial
  exact ⟨_, hr, by decide +kernel, by decide +kernel, by decide +kernel, by decide +kernel,
    satisfiedAll_accepted_iff_of_reaches .default ⟨fun _ => 0, 0⟩ 3 hr⟩

/-- Whatever calls are made on a new search, every solve is right about the clauses given so far.
After a clause that is answered to contradict the others there is no model, and every solve says
so. -/
theorem isRight_solve_of_reaches (config : Config) (source : Random.Source) (n : Nat)
    (h : Reaches (fun t call => call.IsSound t) (withSource config source n) calls s) :
    (∀ clock, IsRight (given calls) config (s.solve clock).2.atomCount (s.solve clock).1) ∧
      ∀ c, (s.addClause c).1 = .error .contradiction →
        (∀ v, ¬ Clause.SatisfiedAll v (given (calls ++ [.addClause c]))) ∧
          ∀ later t, Reaches (fun t call => call.IsSound t) (s.addClause c).2 later t →
            ∀ clock, (t.solve clock).1 = .unsatisfiable := by
  have hrep := h.represents (represents_withSource config source n)
  refine ⟨fun clock => ?_, fun c hc => ?_⟩
  · have hright := (hrep.solve clock).2
    rwa [h.persists.config] at hright
  · have hmark := inconsistent_of_contradiction hc
    refine ⟨fun v hv => ?_, fun later t hlater clock => ?_⟩
    -- the state after the answer stands for the clause as well, and is marked
    · have hok : (Call.addClause c).IsSound s := trivial
      have hnext := (h.call hok).represents (represents_withSource config source n)
      have hunmarked : (s.addClause c).2.inconsistent = false := (hnext.sound v hv).1
      rw [hmark] at hunmarked
      cases hunmarked
    · rw [solve_of_inconsistent (hlater.persists.inconsistent hmark)]

/-- A clause is stored and solved, and the first of its atoms is made false for good. A clause that has
this atom as well is then stored with it behind, and to assert the atom contradicts the rest. -/
theorem isRight_solve_after_solve :
    let new := withSource .default ⟨fun _ => 0, 0⟩ 2
    let calls : List Call := [.addClause [⟨1, true⟩, ⟨2, true⟩], .solve fun _ => .zero,
      .addClause [⟨1, false⟩], .addClause [⟨1, true⟩, ⟨3, true⟩]]
    let s := calls.foldl (fun s call => (s.perform call).2) new
    Reaches (fun t call => call.IsSound t) new calls s ∧
      s.store.clauses.toList = [⟨⟨2, true⟩, ⟨1, true⟩, []⟩, ⟨⟨3, true⟩, ⟨1, true⟩, []⟩] ∧
      s.assignment.trail.toList = [⟨1, false⟩] ∧
      (s.solve fun _ => .zero).1 = .satisfiable [⟨1, false⟩, ⟨2, true⟩, ⟨3, true⟩] ∧
      (∀ clock, IsRight [[⟨1, true⟩, ⟨2, true⟩], [⟨1, false⟩], [⟨1, true⟩, ⟨3, true⟩]] .default
        (s.solve clock).2.atomCount (s.solve clock).1) ∧
      (s.addClause [⟨1, true⟩]).1 = .error .contradiction ∧
      ∀ clock, ((s.addClause [⟨1, true⟩]).2.solve clock).1 = .unsatisfiable := by
  intro new calls s
  have hr : Reaches (fun t call => call.IsSound t) new calls s :=
    (((Reaches.refl.call trivial).call trivial).call trivial).call trivial
  have hc : (s.addClause [⟨1, true⟩]).1 = .error .contradiction :=
    contradiction_of_inconsistent (by decide +kernel) (by decide +kernel)
  obtain ⟨hsolve, hcontra⟩ := isRight_solve_of_reaches .default ⟨fun _ => 0, 0⟩ 2 hr
  exact ⟨hr, by decide +kernel, by decide +kernel, by decide +kernel, hsolve, hc,
    (hcontra _ hc).2 [] _ .refl⟩

end Clausal.Search
