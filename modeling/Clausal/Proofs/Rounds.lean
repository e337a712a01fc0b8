import Clausal.Proofs.Enumeration
import Mathlib.Data.Finset.Powerset
import Mathlib.Data.Finset.Image

/-!
# Enumeration against any oracle

Nothing is assumed of the oracle here: its answers may be wrong, may change from round to round, and
may be errors. What passes between the two is kept by an oracle that records it, and the record falls
into rounds. Every round but the last adds a blocking clause that was not there before, and of these
there are no more than sets of listed atoms, so the rounds come to an end whatever is answered.
-/

namespace Clausal

namespace Oracle

variable {σ : Type}

/-! ## Records -/

/-- What passes between an oracle and the one who asks it. -/
inductive Event where
  /-- A fresh instance is asked for. -/
  | started (atomCount : Nat)
  | offered (c : Clause) (answer : Except OracleError Unit)
  | reported (answer : Except OracleError Report)

/-- An oracle that keeps a record of what it is asked and of what it answers. -/
def recorded (o : Oracle σ) : Oracle (σ × List Event) where
  start atomCount s := (o.start atomCount s.1, s.2 ++ [.started atomCount])
  addClause c s :=
    let (answer, t) := o.addClause c s.1
    (answer, t, s.2 ++ [.offered c answer])
  solve s :=
    let (answer, t) := o.solve s.1
    (answer, t, s.2 ++ [.reported answer])

/-- How a round ends. -/
inductive Ending where
  /-- A clause is refused. -/
  | refused (c : Clause) (e : OracleError)
  /-- All clauses are taken, and the oracle is asked for its report. -/
  | reported (answer : Except OracleError Report)

/-- What an oracle says of an instance: what it refuses a clause with, or else its report. -/
def Ending.answer : Ending → Except OracleError Report
  | .refused _ e => .error e
  | .reported answer => answer

def Ending.event : Ending → Event
  | .refused c e => .offered c (.error e)
  | .reported answer => .reported answer

/-- A round, in which an instance is put to an oracle. -/
structure Round where
  cnf : Cnf
  /-- The clauses offered and not refused, in order. -/
  taken : List Clause
  ending : Ending

namespace Round

def events (r : Round) : List Event :=
  .started r.cnf.atomCount :: r.taken.map (.offered · (.ok ())) ++ [r.ending.event]

/-- The clauses of the instance are offered in order, up to the first that is refused. -/
def InOrder (r : Round) : Prop :=
  match r.ending with
  | .refused c _ => ∃ rest, r.cnf.clauses = r.taken ++ c :: rest
  | .reported _ => r.cnf.clauses = r.taken

/-- The model that the oracle reports. -/
def model? (r : Round) : Option Model :=
  match r.ending.answer with
  | .ok (.satisfiable ls) => some (Model.ofLiterals r.cnf.atomCount ls)
  | _ => none

/-- The error of a round in which time is up or the oracle fails. That the clauses contradict each
other is no failure. -/
def failure? (r : Round) : Option Error :=
  match r.ending.answer with
  | .ok .timeUp => some .timeout
  | .error .contradiction => none
  | .error e => some (.oracle e)
  | .ok _ => none

theorem readReport_eq (r : Round) : r.cnf.readReport r.ending.answer =
    match r.failure? with
    | some e => .error e
    | none => .ok r.model? := by
  unfold failure? model?
  cases r.ending.answer with
  | error e => cases e <;> rfl
  | ok report => cases report <;> rfl

theorem failure?_eq_none_of_model? {r : Round} {m : Model} (h : r.model? = some m) :
    r.failure? = none := by
  unfold model? at h
  unfold failure?
  cases ha : r.ending.answer with
  | error e => simp [ha] at h
  | ok report => cases report <;> simp [ha] at h ⊢

end Round

/-! ## One round -/

/-- Clauses are taken one after the other, all of them or up to one that is refused. -/
theorem addAll_recorded_cases (o : Oracle σ) (cs : List Clause) (s : σ) (log : List Event) :
    (∃ t, o.addAll cs s = (.ok (), t) ∧ o.recorded.addAll cs (s, log)
        = (.ok (), t, log ++ cs.map (.offered · (.ok ())))) ∨
      ∃ taken c rest e t, cs = taken ++ c :: rest ∧ o.addAll cs s = (.error e, t) ∧
        o.recorded.addAll cs (s, log)
          = (.error e, t, log ++ taken.map (.offered · (.ok ())) ++ [.offered c (.error e)]) := by
  induction cs generalizing s log with
  | nil => exact .inl ⟨s, rfl, by simp [addAll]⟩
  | cons c cs ih =>
    rcases hc : o.addClause c s with ⟨e | ⟨⟩, t⟩
    · refine .inr ⟨[], c, cs, e, t, rfl, ?_, ?_⟩ <;> simp [addAll, recorded, hc]
    · rcases ih t (log ++ [.offered c (.ok ())]) with
        ⟨u, hu, hlog⟩ | ⟨taken, d, rest, e, u, rfl, hu, hlog⟩
      · refine .inl ⟨u, ?_, ?_⟩
        · simp [addAll, hc, hu]
        · simp only [recorded] at hlog
          simp [addAll, recorded, hc, hlog]
      · refine .inr ⟨c :: taken, d, rest, e, u, rfl, ?_, ?_⟩
        · simp [addAll, hc, hu]
        · simp only [recorded] at hlog
          simp [addAll, recorded, hc, hlog]

/-- Asking for a model is a round, and the record of it is the record of the round. -/
theorem exists_round (o : Oracle σ) (cnf : Cnf) (s : σ) (log : List Event) :
    ∃ r : Round, r.cnf = cnf ∧ r.InOrder ∧
      (o.findModel cnf s).1 = r.cnf.readReport r.ending.answer ∧
      o.recorded.findModel cnf (s, log)
        = ((o.findModel cnf s).1, (o.findModel cnf s).2, log ++ r.events) := by
  rcases addAll_recorded_cases o cnf.clauses (o.start cnf.atomCount s)
    (log ++ [.started cnf.atomCount]) with ⟨t, ht, hlog⟩ | ⟨taken, c, rest, e, t, hcs, ht, hlog⟩
  · refine ⟨⟨cnf, cnf.clauses, .reported (o.solve t).1⟩, rfl, rfl, ?_, ?_⟩
    · simp [findModel, register, ht, Ending.answer]
    · simp only [recorded] at hlog
      simp [findModel, register, recorded, ht, hlog, Round.events, Ending.event]
  · refine ⟨⟨cnf, taken, .refused c e⟩, rfl, ⟨rest, hcs⟩, ?_, ?_⟩
    · simp [findModel, register, ht, Ending.answer]
    · simp only [recorded] at hlog
      simp [findModel, register, recorded, ht, hlog, Round.events, Ending.event]

/-! ## All rounds -/

variable {atoms : List Atom} {limit : Nat} {cnf : Cnf} {rounds : List Round} {ms : List Model}
  {result : Except Error (List Model)}

/-- The rounds of an enumeration and what comes of them, by the instance that the first round puts
to the oracle. -/
inductive Enumerates (atoms : List Atom) :
    Nat → Cnf → List Round → Except Error (List Model) → Prop
  /-- The limit is reached. -/
  | reached {cnf : Cnf} : Enumerates atoms 0 cnf [] (.ok [])
  /-- Time is up, or the oracle fails. -/
  | failed {limit : Nat} {r : Round} {e : Error} (hr : r.InOrder) (hf : r.failure? = some e) :
      Enumerates atoms (limit + 1) r.cnf [r] (.error e)
  /-- No model is reported. -/
  | exhausted {limit : Nat} {r : Round} (hr : r.InOrder) (hf : r.failure? = none)
      (hm : r.model? = none) : Enumerates atoms (limit + 1) r.cnf [r] (.ok [])
  /-- The clause that blocks the model reported is there already. -/
  | repeated {limit : Nat} {r : Round} {m : Model} (hr : r.InOrder) (hm : r.model? = some m)
      (hmem : (m.blockingClause atoms).canonical ∈ r.cnf.clauses) :
      Enumerates atoms (limit + 1) r.cnf [r] (.ok [m.restrict atoms])
  /-- The model reported is blocked in the rounds that follow. -/
  | found {limit : Nat} {r : Round} {m : Model} {rounds : List Round}
      {result : Except Error (List Model)} (hr : r.InOrder) (hm : r.model? = some m)
      (hnew : (m.blockingClause atoms).canonical ∉ r.cnf.clauses)
      (h : Enumerates atoms limit (r.cnf.insert (m.blockingClause atoms)) rounds result) :
      Enumerates atoms (limit + 1) r.cnf (r :: rounds) (result.map (m.restrict atoms :: ·))

/-- An enumeration goes through rounds, and the record of it is the record of its rounds. -/
theorem enumerates_findModels (o : Oracle σ) (hatoms : ∀ a ∈ atoms, a.index ≤ atomMax)
    (limit : Nat) (cnf : Cnf) (s : σ) (log : List Event) :
    ∃ rounds, Enumerates atoms limit cnf rounds (o.findModels atoms limit cnf s).1 ∧
      o.recorded.findModels atoms limit cnf (s, log)
        = ((o.findModels atoms limit cnf s).1, (o.findModels atoms limit cnf s).2,
            log ++ rounds.flatMap Round.events) := by
  induction limit generalizing cnf s log with
  | zero => exact ⟨[], .reached, by simp [findModels]⟩
  | succ limit ih =>
    obtain ⟨r, rfl, hr, hanswer, hlog⟩ := o.exists_round cnf s log
    rw [r.readReport_eq] at hanswer
    rcases hfind : o.findModel r.cnf s with ⟨e | m?, t⟩
    · rw [hfind] at hanswer hlog
      cases hf : r.failure? with
      | none => simp [hf] at hanswer
      | some e' =>
        simp only [hf, Except.error.injEq] at hanswer
        subst hanswer
        refine ⟨[r], ?_, ?_⟩
        · simpa [findModels, hfind] using Enumerates.failed hr hf
        · simp [findModels, hfind, hlog]
    · rw [hfind] at hanswer hlog
      cases hf : r.failure? with
      | some e' => simp [hf] at hanswer
      | none =>
        simp only [hf, Except.ok.injEq] at hanswer
        cases m? with
        | none =>
          refine ⟨[r], ?_, ?_⟩
          · simpa [findModels, hfind] using Enumerates.exhausted hr hf hanswer.symm
          · simp [findModels, hfind, hlog]
        | some m =>
          have hadd := r.cnf.addClause_of_inRange (m.inRange_blockingClause hatoms)
          by_cases hmem : (m.blockingClause atoms).canonical ∈ r.cnf.clauses
          · refine ⟨[r], ?_, ?_⟩
            · simpa [findModels, hfind, hadd, hmem] using Enumerates.repeated hr hanswer.symm hmem
            · simp [findModels, hfind, hlog, hadd, hmem]
          · obtain ⟨rounds, hrounds, hrest⟩ :=
              ih (r.cnf.insert (m.blockingClause atoms)) t (log ++ r.events)
            have hcons := Enumerates.found hr hanswer.symm hmem hrounds
            generalize hgo : o.findModels atoms limit (r.cnf.insert (m.blockingClause atoms)) t = go
              at hrest hcons
            obtain ⟨result, u⟩ := go
            refine ⟨r :: rounds, ?_, ?_⟩
            · cases result with
              | error e => simpa [findModels, hfind, hadd, hmem, hgo, Except.map] using hcons
              | ok ms => simpa [findModels, hfind, hadd, hmem, hgo, Except.map] using hcons
            · cases result with
              | error e => simp [findModels, hfind, hlog, hadd, hmem, hgo, hrest]
              | ok ms => simp [findModels, hfind, hlog, hadd, hmem, hgo, hrest]

/-! ## Blocking clauses -/

/-- The clauses that block what may be said about listed atoms. -/
def blockingClauses (atoms : List Atom) : Finset Clause :=
  atoms.toFinset.powerset.image fun ts =>
    Clause.canonical (atoms.map fun a => ⟨a.index, !decide (a ∈ ts)⟩)

theorem card_blockingClauses_le (atoms : List Atom) :
    (blockingClauses atoms).card ≤ 2 ^ atoms.toFinset.card :=
  Nat.le_trans Finset.card_image_le (Nat.le_of_eq (Finset.card_powerset _))

theorem mem_blockingClauses (m : Model) (atoms : List Atom) :
    (m.blockingClause atoms).canonical ∈ blockingClauses atoms := by
  refine Finset.mem_image.mpr ⟨atoms.toFinset.filter (m.valueOf · = true), ?_, ?_⟩
  · exact Finset.mem_powerset.mpr (Finset.filter_subset _ _)
  · refine congrArg Clause.canonical (List.map_congr_left fun a ha => ?_)
    simp [ha]

/-- What a round puts to the oracle, by the rounds before it: one fresh instance with the clauses of
the encoding and those that block the models of the rounds before, in the order of clauses. -/
structure Round.Presents (cnf : Cnf) (atoms : List Atom) (earlier : List Round) (r : Round) :
    Prop where
  inOrder : r.InOrder
  increasing : Ordered.Increasing Cnf.clauseOrder r.cnf.clauses
  mem_clauses : ∀ c, c ∈ r.cnf.clauses ↔
    c ∈ cnf.clauses ∨ ∃ s ∈ earlier, ∃ m, s.model? = some m ∧
      (m.blockingClause atoms).canonical = c

namespace Enumerates

theorem length_le (h : Enumerates atoms limit cnf rounds result) : rounds.length ≤ limit := by
  induction h with
  | reached => exact Nat.le_refl 0
  | failed | exhausted | repeated => exact Nat.succ_le_succ (Nat.zero_le _)
  | found hr hm hnew h ih => exact Nat.succ_le_succ ih

/-- Every round but the last takes a clause from those that may still be added. -/
theorem length_le_card (h : Enumerates atoms limit cnf rounds result) :
    rounds.length ≤ (blockingClauses atoms \ cnf.clauses.toFinset).card + 1 := by
  induction h with
  | reached => exact Nat.zero_le _
  | failed | exhausted | repeated => exact Nat.succ_le_succ (Nat.zero_le _)
  | @found limit r m rounds result hr hm hnew h ih =>
    have hmem : (m.blockingClause atoms).canonical
        ∈ blockingClauses atoms \ r.cnf.clauses.toFinset := by
      rw [Finset.mem_sdiff, List.mem_toFinset]
      exact ⟨mem_blockingClauses m atoms, hnew⟩
    have hinsert : (r.cnf.insert (m.blockingClause atoms)).clauses.toFinset
        = insert (m.blockingClause atoms).canonical r.cnf.clauses.toFinset := by
      ext c
      simp [Cnf.mem_clauses_insert]
    rw [hinsert, Finset.sdiff_insert, Finset.card_erase_of_mem hmem] at ih
    have hpos := Finset.card_pos.mpr ⟨_, hmem⟩
    rw [List.length_cons]
    omega

theorem presents (h : Enumerates atoms limit cnf rounds result)
    (hinc : Ordered.Increasing Cnf.clauseOrder cnf.clauses) {earlier later : List Round}
    {r : Round} (heq : rounds = earlier ++ r :: later) : r.Presents cnf atoms earlier := by
  have hfirst : ∀ r : Round, r.InOrder → Ordered.Increasing Cnf.clauseOrder r.cnf.clauses →
      r.Presents r.cnf atoms [] := fun r hr hinc => ⟨hr, hinc, by simp⟩
  induction h generalizing earlier with
  | reached => simp at heq
  | failed hr | exhausted hr | repeated hr =>
    obtain ⟨rfl, hcons⟩ | ⟨before, rfl, hnil⟩ := List.cons_eq_append_iff.mp heq
    · obtain ⟨rfl, -⟩ := List.cons.inj hcons
      exact hfirst _ hr hinc
    · simp at hnil
  | @found limit s m rounds result hr hm hnew h ih =>
    obtain ⟨rfl, hcons⟩ | ⟨before, rfl, hrest⟩ := List.cons_eq_append_iff.mp heq
    · obtain ⟨rfl, -⟩ := List.cons.inj hcons
      exact hfirst _ hr hinc
    · have hp := ih (hinc.insert _ _) hrest
      refine ⟨hp.inOrder, hp.increasing, fun c => ?_⟩
      rw [hp.mem_clauses, Cnf.mem_clauses_insert]
      simp only [List.exists_mem_cons_iff, hm, Option.some.injEq, exists_eq_left']
      rw [eq_comm, or_comm (a := _ = c), or_assoc]

/-- An error comes from a round, and a round that fails makes an error. -/
theorem eq_error_iff (h : Enumerates atoms limit cnf rounds result) (e : Error) :
    result = .error e ↔ ∃ r ∈ rounds, r.failure? = some e := by
  induction h with
  | reached => simp
  | failed hr hf => simp [hf]
  | exhausted hr hf hm => simp [hf]
  | repeated hr hm hmem => simp [Round.failure?_eq_none_of_model? hm]
  | @found limit r m rounds result hr hm hnew h ih =>
    rw [List.exists_mem_cons_iff, ← ih, Round.failure?_eq_none_of_model? hm]
    cases result <;> simp [Except.map]

/-- Without an error there is a model for each round that reports one. -/
theorem eq_ok (h : Enumerates atoms limit cnf rounds result)
    (hf : ∀ r ∈ rounds, r.failure? = none) :
    result = .ok ((rounds.filterMap Round.model?).map (Model.restrict · atoms)) := by
  induction h with
  | reached => rfl
  | failed hr hf' => simp [hf'] at hf
  | exhausted hr hf' hm => simp [hm]
  | repeated hr hm hmem => simp [hm]
  | found hr hm hnew h ih =>
    rw [ih (List.forall_mem_cons.mp hf).2]
    simp [hm, Except.map]

/-- The models listed but for the last are blocked by clauses that were not there. -/
theorem blocked (h : Enumerates atoms limit cnf rounds (.ok ms)) :
    ∀ m ∈ ms.dropLast, ∃ m', m = Model.restrict m' atoms ∧
      (m'.blockingClause atoms).canonical ∉ cnf.clauses := by
  generalize hresult : Except.ok ms = result at h
  induction h generalizing ms with
  | reached | exhausted | repeated =>
    cases hresult
    simp
  | failed => cases hresult
  | @found limit r m rounds result hr hm hnew h ih =>
    cases result with
    | error e => cases hresult
    | ok ms' =>
      cases hresult
      intro m' hm'
      cases ms' with
      | nil => simp at hm'
      | cons n ms' =>
        rcases List.mem_cons.mp hm' with rfl | hm'
        · exact ⟨m, rfl, hnew⟩
        · obtain ⟨m'', rfl, hblock⟩ := ih rfl m' hm'
          exact ⟨m'', rfl, fun hmem => hblock (Cnf.mem_clauses_insert.mpr (.inr hmem))⟩

/-- The models listed but for the last make different atoms true. -/
theorem distinct (h : Enumerates atoms limit cnf rounds (.ok ms)) :
    ms.dropLast.Pairwise fun m m' => m.truths ≠ m'.truths := by
  generalize hresult : Except.ok ms = result at h
  induction h generalizing ms with
  | reached | exhausted | repeated =>
    cases hresult
    exact List.Pairwise.nil
  | failed => cases hresult
  | @found limit r m rounds result hr hm hnew h ih =>
    cases result with
    | error e => cases hresult
    | ok ms' =>
      cases hresult
      cases ms' with
      | nil => exact List.Pairwise.nil
      | cons n ms' =>
        refine List.pairwise_cons.mpr ⟨fun m' hm' heq => ?_, ih rfl⟩
        obtain ⟨m'', rfl, hblock⟩ := h.blocked m' hm'
        rw [Model.truths_restrict, Model.truths_restrict] at heq
        rw [← Model.blockingClause_eq heq] at hblock
        exact hblock (Cnf.mem_clauses_insert.mpr (.inl rfl))

end Enumerates

end Oracle

/-! ## Enumeration in a session -/

namespace Session

variable {σ : Type}

/-- The session with a record of what its oracle is asked and answers. -/
def recorded (s : Session σ) : Session (σ × List Oracle.Event) :=
  ⟨s.supply, s.oracle.recorded, (s.state, [])⟩

/-- Whatever the oracle answers, the models of a formula that encodes are found in rounds, no more
than the limit and than one for each set of listed atoms and one more. Each round puts the encoding
with the blocked models of the rounds before to the oracle, up to the first clause that is refused.
An error is that of a round; otherwise there is a model for each round that reported one, and none
but the last makes the same atoms true as another. -/
theorem allModels_rounds (s : Session σ) {f : Formula} {e : Encoding} {t : Supply}
    (he : s.supply.encode f = (.ok e, t)) {atoms : List Atom}
    (hatoms : ∀ a ∈ atoms, a.index ≤ atomMax) (limit : Nat) :
    let r := s.allModels f atoms limit
    ∃ rounds : List Oracle.Round,
      (s.recorded.allModels f atoms limit).1 = r.1 ∧
      (s.recorded.allModels f atoms limit).2.state
        = (r.2.state, rounds.flatMap Oracle.Round.events) ∧
      rounds.length ≤ min limit (2 ^ atoms.toFinset.card + 1) ∧
      (∀ earlier round later, rounds = earlier ++ round :: later →
        round.Presents e.cnf atoms earlier) ∧
      (∀ x, r.1 = .error x ↔ ∃ round ∈ rounds, round.failure? = some x) ∧
      ((∀ round ∈ rounds, round.failure? = none) → ∃ ms, r.1 = .ok ms ∧
        ms = (rounds.filterMap Oracle.Round.model?).map (Model.restrict · atoms) ∧
        ms.dropLast.Pairwise fun m m' => m.truths ≠ m'.truths) := by
  intro r
  have hencodes := Supply.encodes_of_eq_ok he
  obtain ⟨rounds, h, hlog⟩ :=
    Oracle.enumerates_findModels s.oracle hatoms limit e.cnf s.state []
  have hr : r.1 = (s.oracle.findModels atoms limit e.cnf s.state).1 :=
    s.allModels_of_encode_eq_ok he atoms limit
  rw [← hr] at h
  have hincreasing : Ordered.Increasing Cnf.clauseOrder e.cnf.clauses := by
    rw [hencodes.cnf]
    exact Cnf.increasing_insertAll (Cnf.wellFormed_new 0).increasing _
  refine ⟨rounds, ?_, ?_, ?_, ?_, h.eq_error_iff, ?_⟩
  · have hrecorded := s.recorded.allModels_of_encode_eq_ok he atoms limit
    rw [hrecorded, hr]
    exact congrArg Prod.fst hlog
  · simp [r, recorded, allModels, encode, he, hlog]
  · have hcard := Oracle.card_blockingClauses_le atoms
    have hsdiff := Finset.card_le_card
      (@Finset.sdiff_subset _ _ (Oracle.blockingClauses atoms) e.cnf.clauses.toFinset)
    have hrounds := h.length_le_card
    have hlimit := h.length_le
    omega
  · intro earlier round later heq
    exact h.presents hincreasing heq
  · intro hf
    have hok := h.eq_ok hf
    rw [hok] at h
    exact ⟨_, hok, rfl, h.distinct⟩

/-- An oracle that says the same of every instance, that the first atom is true, reports a model
again after it is blocked. -/
theorem allModels_rounds_insistent :
    let x : Atom := ⟨1, by decide⟩
    let insistent : Oracle Unit :=
      ⟨fun _ s => s, fun _ s => (.ok (), s), fun s => (.ok (.satisfiable [⟨1, true⟩]), s)⟩
    let session : Session Unit := ⟨⟨1, 0, by decide⟩, insistent, ()⟩
    ∃ e t, session.supply.encode (.var x) = (.ok e, t) ∧ (∀ a ∈ [x, x], a.index ≤ atomMax) ∧
      (session.allModels (.var x) [x, x] 5).1 = .ok [⟨[x], 1⟩, ⟨[x], 1⟩] ∧
      ∃ rounds : List Oracle.Round, rounds.length ≤ 3 ∧
        (rounds.filterMap Oracle.Round.model?).map (Model.restrict · [x, x])
          = [⟨[x], 1⟩, ⟨[x], 1⟩] := by
  intro x insistent session
  obtain ⟨e, t, he, -⟩ := Supply.exists_encode_eq_ok (s := session.supply) (f := .var x) rfl
    (by decide) (by decide)
  have hatoms : ∀ a ∈ [x, x], a.index ≤ atomMax := by decide
  have hresult : (session.allModels (.var x) [x, x] 5).1 = .ok [⟨[x], 1⟩, ⟨[x], 1⟩] := rfl
  obtain ⟨rounds, -, -, hlength, -, herror, hok⟩ := allModels_rounds session he hatoms 5
  have hf : ∀ round ∈ rounds, round.failure? = none := by
    intro round hround
    cases hfail : round.failure? with
    | none => rfl
    | some x =>
      have hx := (herror x).mpr ⟨round, hround, hfail⟩
      rw [hresult] at hx
      cases hx
  obtain ⟨ms, hms, hmodels, -⟩ := hok hf
  rw [hresult] at hms
  cases hms
  exact ⟨e, t, he, hatoms, hresult, rounds, Nat.le_trans hlength (by decide), hmodels.symm⟩

end Session

end Clausal
