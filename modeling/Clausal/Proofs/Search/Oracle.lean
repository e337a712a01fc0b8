import Clausal.Proofs.Cnf
import Clausal.Proofs.Search.Solve
import Clausal.Search.Oracle

/-!
# The search as an oracle

An instance is put to the search clause by clause. If a clause is answered to contradict those
before it there is no model; otherwise the solve that follows is right about the instance. The model
found is the one that the literals of the report stand for.
-/

namespace Clausal

/-! ## Models of literals -/

theorem Model.value_ofLiterals (n : Nat) (ls : List Literal) {i : Nat} (hi : 0 < i) :
    (ofLiterals n ls).value i = Search.reading ls i := by
  rw [Bool.eq_iff_iff, value_eq_true_iff]
  simp only [ofLiterals, Ordered.mem_ofList, List.mem_filterMap, Search.reading,
    decide_eq_true_eq]
  constructor
  · intro hmem
    obtain ⟨a, ⟨l, hl, ha⟩, rfl⟩ := hmem
    have hla : l = ⟨a.index, true⟩ := by
      unfold Literal.asserted? at ha
      split at ha
      · cases hp : l.polarity with
        | true =>
          rw [hp] at ha
          cases ha
          exact Literal.ext rfl hp
        | false =>
          rw [hp] at ha
          cases ha
      · cases ha
    rwa [← hla]
  · intro hl
    exact ⟨⟨i, hi⟩, ⟨_, hl, by simp [Literal.asserted?, hi]⟩, rfl⟩

namespace Search

variable {s : Search} {cs ds : List Clause} {c : Clause}

/-! ## Offering clauses -/

/-- Offering clauses leaves a state that stands for them, or finds that they have no model. -/
theorem addAll_cases (clock : Clock) (hz : ∀ c ∈ cs, ¬ HasZero c) (h : Represents ds s) :
    (∃ t, (oracle clock).addAll cs s = (.ok (), t) ∧ Represents (ds ++ cs) t ∧
        t.config = s.config) ∨
      ∃ t, (oracle clock).addAll cs s = (.error .contradiction, t) ∧
        ∀ v, ¬ Clause.SatisfiedAll v (ds ++ cs) := by
  induction cs generalizing ds s with
  | nil =>
    rw [List.append_nil]
    exact .inl ⟨s, rfl, h, rfl⟩
  | cons c cs ih =>
    have hzc := hz c List.mem_cons_self
    have hrep := h.addClause hzc
    have hspec := addClause_spec (s := s) hzc
    have hassoc : ds ++ c :: cs = ds ++ [c] ++ cs := by simp
    have hadd : (oracle clock).addClause c s = s.addClause c := rfl
    rw [Oracle.addAll, hadd, hassoc]
    generalize s.addClause c = r at hrep hspec ⊢
    obtain ⟨_, t⟩ := r
    cases hspec with
    | taken hkeep =>
      rcases ih (fun d hd => hz d (List.mem_cons_of_mem _ hd)) hrep with
        ⟨u, hu, hrep', hconfig⟩ | hno
      · exact .inl ⟨u, hu, hrep', hconfig.trans hkeep.config⟩
      · exact .inr hno
    | contradicting hconfig hmark =>
      refine .inr ⟨t, rfl, fun v hv => ?_⟩
      have hunmarked := (hrep.sound v (Clause.satisfiedAll_append.mp hv).1).1
      rw [hmark] at hunmarked
      cases hunmarked

/-! ## The configuration -/

theorem config_addAll (clock : Clock) (cs : List Clause) (s : Search) :
    ((oracle clock).addAll cs s).2.config = s.config := by
  induction cs generalizing s with
  | nil => rfl
  | cons c cs ih =>
    have hconfig := (persists_addClause s c).config
    have hadd : (oracle clock).addClause c s = s.addClause c := rfl
    rw [Oracle.addAll, hadd]
    generalize s.addClause c = r at hconfig ⊢
    obtain ⟨_ | _, t⟩ := r
    · exact hconfig
    · exact (ih t).trans hconfig

/-- The search that an oracle is left with has the configuration that it began with. -/
theorem config_findModel (clock : Clock) (cnf : Cnf) (s : Search) :
    ((oracle clock).findModel cnf s).2.config = s.config := by
  have hregister : ((oracle clock).register cnf s).2.config = s.config :=
    config_addAll clock cnf.clauses (new s.config cnf.atomCount)
  unfold Oracle.findModel
  generalize (oracle clock).register cnf s = r at hregister ⊢
  obtain ⟨_ | _, t⟩ := r
  · exact hregister
  · exact (config_solve clock t).trans hregister

/-! ## Finding a model -/

/-- What is found of an instance is right: a model, or that there is none; an answer is missing only
where there is a time limit. -/
inductive IsFound (cnf : Cnf) (config : Config) : Except Error (Option Model) → Prop
  | model {m : Model} (hcount : m.atomCount = cnf.atomCount)
      (hmodel : cnf.satisfiedBy m.value = true) : IsFound cnf config (.ok (some m))
  | none (hno : ∀ v, cnf.satisfiedBy v = false) : IsFound cnf config (.ok none)
  | timeout (hlimit : config.timeLimit.value ≠ .zero) : IsFound cnf config (.error .timeout)

theorem isFound_none {cnf : Cnf} {config : Config}
    (h : ∀ v, ¬ Clause.SatisfiedAll v cnf.clauses) : IsFound cnf config (.ok none) := by
  refine .none fun v => ?_
  rw [Bool.eq_false_iff]
  intro hv
  exact h v (Cnf.satisfiedBy_iff.mp hv)

theorem isFound_readReport {cnf : Cnf} {config : Config} {n : Nat} {report : Report}
    (hz : ∀ c ∈ cnf.clauses, ¬ HasZero c) (h : IsRight cnf.clauses config n report) :
    IsFound cnf config (cnf.readReport (.ok report)) := by
  cases h with
  | @satisfiable ls hatoms hmodel =>
    refine .model rfl (Cnf.satisfiedBy_iff.mpr fun c hc => ?_)
    rw [← hmodel c hc]
    refine Clause.satisfiedBy_congr fun l hl => Model.value_ofLiterals _ ls ?_
    exact Nat.pos_of_ne_zero fun h0 => hz c hc ⟨l, hl, h0⟩
  | unsatisfiable hno => exact isFound_none hno
  | timeUp hlimit => exact .timeout hlimit

theorem isFound_findModel {cnf : Cnf} (hz : ∀ c ∈ cnf.clauses, ¬ HasZero c) (clock : Clock)
    (s : Search) : IsFound cnf s.config ((oracle clock).findModel cnf s).1 := by
  have hnew : Represents [] (new s.config cnf.atomCount) :=
    represents_withSource s.config (Random.Source.ofSeed s.config.seed.value) cnf.atomCount
  have hregister : (oracle clock).register cnf s
      = (oracle clock).addAll cnf.clauses (new s.config cnf.atomCount) := rfl
  unfold Oracle.findModel
  rw [hregister]
  rcases addAll_cases clock hz hnew with ⟨t, ht, hrep, hconfig⟩ | ⟨t, ht, hno⟩
  · rw [ht]
    have hright := (hrep.solve clock).2
    rw [hconfig] at hright
    exact isFound_readReport hz hright
  · rw [ht]
    exact isFound_none hno

end Search

end Clausal
