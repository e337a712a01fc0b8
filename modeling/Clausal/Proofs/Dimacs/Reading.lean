import Clausal.Proofs.Cnf
import Clausal.Proofs.Dimacs.Grammar

/-!
# The reader follows the grammar

A reader that took in faultless lines knows the instance that they describe and the atom count that
they declare (`Tracks`). Taking in one more line either fails with the only fault of that line or
keeps the invariant (`Tracks.takes`). So a run over all lines ends with the first fault, or without a
fault and with the instance described (`Tracks.settles`).
-/

namespace Clausal.Dimacs

open Clausal.Text

variable {before after : List (Option (List Char))} {line : Option (List Char)} {cs : List Char}
  {e : ParseError} {r : Reader} {n : Nat} {c : Clause}

/-! ## First faults -/

theorem faultless_nil : Faultless [] := by
  intro before line after h
  simp at h

theorem Faultless.snoc (h : Faultless before) (hline : ∀ e, ¬ Fault before line e) :
    Faultless (before ++ [line]) := by
  intro front line' rest heq
  rcases List.eq_nil_or_concat rest with rfl | ⟨rest, last, rfl⟩
  · obtain ⟨rfl, hlast⟩ := List.append_inj' heq rfl
    cases hlast
    exact hline
  · rw [List.concat_eq_append, ← List.cons_append, ← List.append_assoc] at heq
    exact h front line' rest (List.append_inj' heq rfl).1

/-- The line after faultless lines is the first faulty one, if it is faulty. -/
theorem firstFault_iff (h : Faultless before) (hline : ∃ e, Fault before line e) :
    FirstFault (before ++ line :: after) e ↔ Fault before line e := by
  constructor
  · rintro ⟨front, line', rest, heq, hfront, hfault⟩
    rcases List.append_eq_append_iff.mp heq with ⟨between, rfl, hbetween⟩ | ⟨between, rfl, hbetween⟩
    · cases between with
      | nil =>
        cases hbetween
        simpa using hfault
      | cons _ between =>
        -- the line would be among the faultless ones
        obtain ⟨e', he'⟩ := hline
        cases hbetween
        exact absurd he' (hfront before line between rfl e')
    · cases between with
      | nil =>
        cases hbetween
        simpa using hfault
      | cons _ between =>
        cases hbetween
        exact absurd hfault (h front line' between rfl e)
  · intro hfault
    exact ⟨before, line, after, rfl, h, hfault⟩

theorem Faultless.not_firstFault (h : Faultless before) : ¬ FirstFault before e := by
  rintro ⟨front, line, rest, heq, -, hfault⟩
  exact h front line rest heq e hfault

/-! ## One line -/

/-- What the reader knows of the lines it took in: the atom count that a problem line declares, and
the instance. -/
structure Tracks (before : List (Option (List Char))) (r : Reader) : Prop where
  declared : ∀ n, r.declared? = some n ↔ ∃ cs, some cs ∈ before ∧ IsProblem cs ∧ Declares cs n
  undeclared : r.declared? = none ↔ ∀ cs, some cs ∈ before → ¬ IsProblem cs
  describes : Describes before r.cnf

/-- The result of taking in a line: a reader that tracks a line without fault, or the only fault. -/
def Takes (before : List (Option (List Char))) (cs : List Char) : Except ParseError Reader → Prop
  | .ok r => (∀ e, ¬ Fault before (some cs) e) ∧ Tracks (before ++ [some cs]) r
  | .error e => ∀ e', Fault before (some cs) e' ↔ e' = e

theorem tracks_start : Tracks [] Reader.start where
  declared n := by simp [Reader.start]
  undeclared := by simp [Reader.start]
  describes := {
    increasing := (Cnf.wellFormed_new 0).increasing
    mem_clauses := by simp [Reader.start, Cnf.empty, Cnf.new]
    declared := by simp
    undeclared := fun _ => by simp [Reader.start, Cnf.empty, Cnf.new, Cnf.maxAtom] }

theorem declares_unique {m : Nat} (hn : Declares cs n) (hm : Declares cs m) : n = m :=
  Option.some.inj ((problem?_eq_some_iff.mpr hn).symm.trans (problem?_eq_some_iff.mpr hm))

theorem Declares.le_atomMax (h : Declares cs n) : n ≤ atomMax := by
  obtain ⟨_, _, _, -, -, hmax, -⟩ := h
  exact hmax

theorem spells_unique {d : Clause} (hc : Spells cs c) (hd : Spells cs d) : c = d :=
  Option.some.inj ((spells_iff.mpr hc).symm.trans (spells_iff.mpr hd))

/-- A problem line is no clause line. -/
theorem IsClause.not_isProblem (h : IsClause cs) : ¬ IsProblem cs := h.2.1

theorem exists_mem_snoc {P : List Char → Prop} :
    (∃ ds, some ds ∈ before ++ [some cs] ∧ P ds) ↔ (∃ ds, some ds ∈ before ∧ P ds) ∨ P cs := by
  simp [or_and_right, exists_or]

theorem forall_mem_snoc {P : List Char → Prop} :
    (∀ ds, some ds ∈ before ++ [some cs] → P ds) ↔ (∀ ds, some ds ∈ before → P ds) ∧ P cs := by
  simp [or_imp, forall_and]

theorem fault_problem_iff (hp : IsProblem cs) :
    Fault before (some cs) e ↔
      e = .problemLine (before.length + 1) ∧
        ((∃ ds, some ds ∈ before ∧ IsProblem ds) ∨ ∀ n, ¬ Declares cs n) ∨
      e = .atomBound (before.length + 1) ∧ (∀ ds, some ds ∈ before → ¬ IsProblem ds) ∧
        ∃ n, Declares cs n ∧ ∃ ds, some ds ∈ before ∧ IsClause ds ∧
          ∃ c, Spells ds c ∧ ∃ l ∈ c, n < l.atom := by
  constructor
  · intro hfault
    cases hfault with
    | repeated _ hds hdp => exact .inl ⟨rfl, .inl ⟨_, hds, hdp⟩⟩
    | problem _ hn => exact .inl ⟨rfl, .inr hn⟩
    | late _ hfirst hn hds hdc hc hl hlt =>
      exact .inr ⟨rfl, hfirst, _, hn, _, hds, hdc, _, hc, _, hl, hlt⟩
    | clause hc => exact absurd hp hc.not_isProblem
    | bound hc => exact absurd hp hc.not_isProblem
  · rintro (⟨rfl, ⟨ds, hds, hdp⟩ | hn⟩ | ⟨rfl, hfirst, n, hn, ds, hds, hdc, c, hc, l, hl, hlt⟩)
    · exact .repeated hp hds hdp
    · exact .problem hp hn
    · exact .late hp hfirst hn hds hdc hc hl hlt

theorem fault_clause_iff (hc : IsClause cs) :
    Fault before (some cs) e ↔
      e = .clauseLine (before.length + 1) ∧ (∀ c, ¬ Spells cs c) ∨
      e = .atomBound (before.length + 1) ∧ ∃ c, Spells cs c ∧
        ∃ ds, some ds ∈ before ∧ IsProblem ds ∧ ∃ n, Declares ds n ∧ ∃ l ∈ c, n < l.atom := by
  constructor
  · intro hfault
    cases hfault with
    | repeated hp => exact absurd hp hc.not_isProblem
    | problem hp => exact absurd hp hc.not_isProblem
    | late hp => exact absurd hp hc.not_isProblem
    | clause _ hs => exact .inl ⟨rfl, hs⟩
    | bound _ hs hds hdp hn hl hlt => exact .inr ⟨rfl, _, hs, _, hds, hdp, _, hn, _, hl, hlt⟩
  · rintro (⟨rfl, hs⟩ | ⟨rfl, c, hs, ds, hds, hdp, n, hn, l, hl, hlt⟩)
    · exact .clause hc hs
    · exact .bound hc hs hds hdp hn hl hlt

section Describes

variable {cnf : Cnf}

/-- An earlier clause line has an atom above `n` exactly if the instance so far does. -/
theorem Describes.lt_maxAtom_iff (h : Describes before cnf) :
    n < cnf.maxAtom ↔ ∃ ds, some ds ∈ before ∧ IsClause ds ∧
      ∃ c, Spells ds c ∧ ∃ l ∈ c, n < l.atom := by
  rw [Cnf.lt_maxAtom_iff]
  constructor
  · rintro ⟨d, hd, hlt⟩
    obtain ⟨ds, hds, hdc, c, hc, rfl⟩ := (h.mem_clauses d).mp hd
    rw [Clause.maxAtom_canonical] at hlt
    exact ⟨ds, hds, hdc, c, hc, Clause.lt_maxAtom_iff.mp hlt⟩
  · rintro ⟨ds, hds, hdc, c, hc, hlt⟩
    refine ⟨c.canonical, (h.mem_clauses _).mpr ⟨ds, hds, hdc, c, hc, rfl⟩, ?_⟩
    rw [Clause.maxAtom_canonical]
    exact Clause.lt_maxAtom_iff.mpr hlt

theorem Describes.snoc_other (h : Describes before cnf) (hp : ¬ IsProblem cs)
    (hc : ¬ IsClause cs) : Describes (before ++ [some cs]) cnf where
  increasing := h.increasing
  mem_clauses d := by
    rw [exists_mem_snoc, h.mem_clauses]
    simp [hc]
  declared := forall_mem_snoc.mpr ⟨h.declared, fun hcs => absurd hcs hp⟩
  undeclared hnone := h.undeclared (forall_mem_snoc.mp hnone).1

theorem Describes.snoc_problem (h : Describes before cnf)
    (hfirst : ∀ ds, some ds ∈ before → ¬ IsProblem ds) (hp : IsProblem cs) (hn : Declares cs n)
    (hmax : cnf.maxAtom ≤ n) : Describes (before ++ [some cs]) (cnf.declareAtomCount n) where
  increasing := h.increasing
  mem_clauses d := by
    have hc : ¬ IsClause cs := fun hc => hc.not_isProblem hp
    rw [exists_mem_snoc, ← h.mem_clauses]
    simp [hc, Cnf.declareAtomCount]
  declared := by
    refine forall_mem_snoc.mpr ⟨fun ds hds hdp => absurd hdp (hfirst ds hds), fun _ m hm => ?_⟩
    rw [declares_unique hm hn]
    exact Cnf.atomCount_declareAtomCount hn.le_atomMax (Cnf.maxAtom_le_iff.mp hmax)
  undeclared hnone := absurd hp (forall_mem_snoc.mp hnone).2

theorem Describes.snoc_clause (h : Describes before cnf) (hc : IsClause cs) (hs : Spells cs c)
    (hbound : ∀ ds, some ds ∈ before → IsProblem ds → ∀ n, Declares ds n → c.maxAtom ≤ n) :
    Describes (before ++ [some cs]) (cnf.insert c) where
  increasing := h.increasing.insert _ _
  mem_clauses d := by
    have hspelled : (∃ c', Spells cs c' ∧ c'.canonical = d) ↔ d = c.canonical := by
      constructor
      · rintro ⟨c', hc', rfl⟩
        rw [spells_unique hc' hs]
      · rintro rfl
        exact ⟨c, hs, rfl⟩
    rw [exists_mem_snoc, Cnf.mem_clauses_insert, h.mem_clauses, hspelled]
    simp [hc, or_comm]
  declared := by
    refine forall_mem_snoc.mpr ⟨fun ds hds hdp n hn => ?_, fun hp => absurd hp hc.not_isProblem⟩
    -- a declared count is not raised by atoms within it
    have hcount : (cnf.insert c).atomCount = max cnf.atomCount c.maxAtom := rfl
    rw [hcount, h.declared ds hds hdp n hn]
    exact Nat.max_eq_left (hbound ds hds hdp n hn)
  undeclared hnone := by
    rw [Cnf.maxAtom_insert, ← h.undeclared (forall_mem_snoc.mp hnone).1]
    rfl

end Describes

theorem Tracks.takes_other (ht : Tracks before r) (hp : ¬ IsProblem cs) (hc : ¬ IsClause cs) :
    Takes before cs (.ok r) := by
  refine ⟨?_, ?_, ?_, ht.describes.snoc_other hp hc⟩
  · intro e hfault
    cases hfault <;> contradiction
  · intro n
    rw [exists_mem_snoc, ht.declared]
    simp [hp]
  · rw [forall_mem_snoc, ht.undeclared]
    simp [hp]

theorem Tracks.takes_repeated (ht : Tracks before r) (hp : IsProblem cs) (hd : r.declared? ≠ none)
    (n? : Option Nat) : Takes before cs (r.take (before.length + 1) (.problem n?)) := by
  obtain ⟨n, hn⟩ := Option.ne_none_iff_exists'.mp hd
  obtain ⟨ds, hds, hdp, -⟩ := (ht.declared n).mp hn
  simp only [Reader.take, hn]
  intro e'
  rw [fault_problem_iff hp]
  constructor
  · rintro (⟨rfl, -⟩ | ⟨-, hfirst, -⟩)
    · rfl
    · exact absurd hdp (hfirst ds hds)
  · rintro rfl
    exact .inl ⟨rfl, .inl ⟨ds, hds, hdp⟩⟩

theorem takes_malformed (hp : IsProblem cs) (hno : ∀ n, ¬ Declares cs n) :
    Takes before cs (r.take (before.length + 1) (.problem none)) := by
  have htake : r.take (before.length + 1) (.problem none) =
      .error (.problemLine (before.length + 1)) := by
    cases hd : r.declared? <;> simp [Reader.take, hd]
  rw [htake]
  intro e'
  rw [fault_problem_iff hp]
  constructor
  · rintro (⟨rfl, -⟩ | ⟨-, -, n, hn, -⟩)
    · rfl
    · exact absurd hn (hno n)
  · rintro rfl
    exact .inl ⟨rfl, .inr hno⟩

theorem Tracks.takes_first (ht : Tracks before r) (hp : IsProblem cs) (hn : Declares cs n)
    (hd : r.declared? = none) :
    Takes before cs (r.take (before.length + 1) (.problem (some n))) := by
  have hfirst := ht.undeclared.mp hd
  have hfault : ∀ e, Fault before (some cs) e ↔
      e = .atomBound (before.length + 1) ∧ n < r.cnf.maxAtom := by
    intro e
    rw [fault_problem_iff hp, ht.describes.lt_maxAtom_iff]
    constructor
    · rintro (⟨-, ⟨ds, hds, hdp⟩ | hno⟩ | ⟨rfl, -, m, hm, habove⟩)
      · exact absurd hdp (hfirst ds hds)
      · exact absurd hn (hno n)
      · rw [declares_unique hn hm]
        exact ⟨rfl, habove⟩
    · rintro ⟨rfl, habove⟩
      exact .inr ⟨rfl, hfirst, n, hn, habove⟩
  simp only [Reader.take, hd, ht.describes.undeclared hfirst]
  split
  case isTrue habove =>
    intro e'
    rw [hfault]
    simp [gt_iff_lt.mp habove]
  case isFalse hle =>
    refine ⟨?_, ?_, ?_, ht.describes.snoc_problem hfirst hp hn (Nat.le_of_not_lt hle)⟩
    · intro e hfaulty
      exact hle ((hfault e).mp hfaulty).2
    · intro m
      have hbefore : ¬ ∃ ds, some ds ∈ before ∧ IsProblem ds ∧ Declares ds m := by
        rintro ⟨ds, hds, hdp, -⟩
        exact hfirst ds hds hdp
      have hdeclares : n = m ↔ Declares cs m :=
        ⟨fun h => h ▸ hn, fun hm => declares_unique hn hm⟩
      rw [exists_mem_snoc]
      simp [hbefore, hp, hdeclares]
    · rw [forall_mem_snoc]
      simp [hp]

theorem Tracks.takes_problem (ht : Tracks before r) (hp : IsProblem cs) :
    Takes before cs (r.take (before.length + 1) (.problem (problem? (tokens cs)))) := by
  by_cases hd : r.declared? = none
  · cases hdecl : problem? (tokens cs) with
    | none =>
      refine takes_malformed hp fun n hn => ?_
      rw [problem?_eq_some_iff.mpr hn] at hdecl
      contradiction
    | some n => exact ht.takes_first hp (problem?_eq_some_iff.mp hdecl) hd
  · exact ht.takes_repeated hp hd _

theorem inRange_of_forall₂ {words : List (List Char)} (h : List.Forall₂ IsLiteral words c) :
    Cnf.InRange c := by
  induction h with
  | nil => simp [Cnf.InRange]
  | @cons word l words c hl _ ih =>
    obtain ⟨i, -, hne, hlow, hhigh, rfl⟩ := hl
    refine List.forall_mem_cons.mpr ⟨?_, ih⟩
    simp only [Literal.ofInt, atomMax]
    omega

/-- The reader compares a clause with the declared atom count, if there is one. -/
theorem Tracks.any_declared_iff (ht : Tracks before r) :
    (r.declared?.any fun n => c.atoms.any (n < ·)) = true ↔
      ∃ ds, some ds ∈ before ∧ IsProblem ds ∧ ∃ n, Declares ds n ∧ ∃ l ∈ c, n < l.atom := by
  have hany : ∀ n, c.atoms.any (n < ·) = true ↔ ∃ l ∈ c, n < l.atom := by
    simp [Clause.atoms]
  simp only [Option.any_eq_true, hany, ht.declared]
  constructor
  · rintro ⟨n, ⟨ds, hds, hdp, hn⟩, habove⟩
    exact ⟨ds, hds, hdp, n, hn, habove⟩
  · rintro ⟨ds, hds, hdp, n, hn, habove⟩
    exact ⟨n, ⟨ds, hds, hdp, hn⟩, habove⟩

theorem takes_unspelled (hc : IsClause cs) (hno : ∀ c, ¬ Spells cs c) :
    Takes before cs (r.take (before.length + 1) (.clause none)) := by
  intro e'
  rw [fault_clause_iff hc]
  constructor
  · rintro (⟨rfl, -⟩ | ⟨-, c, hs, -⟩)
    · rfl
    · exact absurd hs (hno c)
  · rintro rfl
    exact .inl ⟨rfl, hno⟩

theorem Tracks.takes_spelled (ht : Tracks before r) (hc : IsClause cs) (hs : Spells cs c) :
    Takes before cs (r.take (before.length + 1) (.clause (some c))) := by
  have hfault : ∀ e, Fault before (some cs) e ↔ e = .atomBound (before.length + 1) ∧
      (r.declared?.any fun n => c.atoms.any (n < ·)) = true := by
    intro e
    rw [fault_clause_iff hc, ht.any_declared_iff]
    constructor
    · rintro (⟨-, hno⟩ | ⟨rfl, c', hs', habove⟩)
      · exact absurd hs (hno c)
      · rw [spells_unique hs hs']
        exact ⟨rfl, habove⟩
    · rintro ⟨rfl, habove⟩
      exact .inr ⟨rfl, c, hs, habove⟩
  simp only [Reader.take, Cnf.addClause_of_inRange _ (inRange_of_forall₂ hs)]
  split
  case isTrue habove =>
    intro e'
    rw [hfault]
    exact ⟨fun h => h.1, fun h => ⟨h, habove⟩⟩
  case isFalse hwithin =>
    refine ⟨?_, ?_, ?_, ht.describes.snoc_clause hc hs ?_⟩
    · intro e hfaulty
      exact hwithin ((hfault e).mp hfaulty).2
    · intro n
      rw [exists_mem_snoc, ht.declared]
      simp [hc.not_isProblem]
    · rw [forall_mem_snoc, ht.undeclared]
      simp [hc.not_isProblem]
    · intro ds hds hdp n hn
      refine Clause.maxAtom_le fun l hl => Nat.le_of_not_lt fun hlt => hwithin ?_
      exact ht.any_declared_iff.mpr ⟨ds, hds, hdp, n, hn, l, hl, hlt⟩

theorem Tracks.takes_clause (ht : Tracks before r) (hc : IsClause cs) :
    Takes before cs
      (r.take (before.length + 1) (.clause ((tokens cs).dropLast.mapM literal?))) := by
  cases hspell : (tokens cs).dropLast.mapM literal? with
  | none =>
    refine takes_unspelled hc fun c hs => ?_
    rw [spells_iff.mpr hs] at hspell
    contradiction
  | some c => exact ht.takes_spelled hc (spells_iff.mp hspell)

theorem Tracks.takes (ht : Tracks before r) (hstop : leading? cs ≠ some '%') :
    Takes before cs (r.take (before.length + 1) (Line.ofChars cs)) := by
  rcases ofChars_cases hstop with ⟨hp, hline⟩ | ⟨hc, hline⟩ | ⟨hp, hc, hline | hline⟩
  · rw [hline]
    exact ht.takes_problem hp
  · rw [hline]
    exact ht.takes_clause hc
  · rw [hline]
    exact ht.takes_other hp hc
  · rw [hline]
    exact ht.takes_other hp hc

/-! ## All lines -/

/-- The result of reading lines: the instance that faultless lines describe, or the first fault. -/
def Settles (lines : List (Option (List Char))) : Except ParseError Cnf → Prop
  | .ok cnf => Faultless lines ∧ Describes lines cnf
  | .error e => ∀ e', FirstFault lines e' ↔ e' = e

theorem takeAll_cons_of_stop {lines : List (Option (List Char))} {number : Nat}
    (hstop : leading? cs = some '%') : r.takeAll number (some cs :: lines) = .ok r.cnf := by
  rw [Reader.takeAll, ofChars_eq_stop_iff.mpr hstop]

theorem takeAll_cons {lines : List (Option (List Char))} {number : Nat}
    (hstop : leading? cs ≠ some '%') :
    r.takeAll number (some cs :: lines) =
      (r.take number (Line.ofChars cs)).bind fun r => r.takeAll (number + 1) lines := by
  rw [Reader.takeAll]
  split
  case h_1 heq => exact absurd (ofChars_eq_stop_iff.mp heq) hstop
  case h_2 => cases r.take number (Line.ofChars cs) <;> rfl

theorem Tracks.settles (ht : Tracks before r) (hf : Faultless before)
    (lines : List (Option (List Char))) :
    Settles (before ++ considered lines) (r.takeAll (before.length + 1) lines) := by
  -- the induction is on the lines to come; those before them stay faultless and tracked
  induction lines generalizing before r with
  | nil =>
    rw [considered, List.takeWhile_nil, List.append_nil]
    exact ⟨hf, ht.describes⟩
  | cons line lines ih =>
    cases line with
    | none =>
      intro e'
      have hunreadable : ∀ e, Fault before none e ↔ e = .unreadable (before.length + 1) := by
        intro e
        constructor
        · rintro ⟨⟩
          rfl
        · rintro rfl
          exact .unreadable
      rw [considered, List.takeWhile_cons_of_pos (by simp),
        firstFault_iff hf ⟨_, .unreadable⟩, hunreadable]
    | some cs =>
      by_cases hstop : leading? cs = some '%'
      · rw [takeAll_cons_of_stop hstop, considered, List.takeWhile_cons_of_neg (by simp [hstop]),
          List.append_nil]
        exact ⟨hf, ht.describes⟩
      · have htakes := ht.takes hstop
        rw [takeAll_cons hstop, considered, List.takeWhile_cons_of_pos (by simp [hstop])]
        cases hr : r.take (before.length + 1) (Line.ofChars cs) with
        | error e =>
          rw [hr] at htakes
          intro e'
          rw [firstFault_iff hf ⟨e, (htakes e).mpr rfl⟩, htakes]
        | ok r' =>
          rw [hr] at htakes
          have hrest := ih htakes.2 (hf.snoc htakes.1)
          rw [List.append_assoc, List.length_append] at hrest
          exact hrest

theorem Faultless.exists_declares {lines : List (Option (List Char))} (hf : Faultless lines)
    (hcs : some cs ∈ lines) (hp : IsProblem cs) : ∃ n, Declares cs n := by
  obtain ⟨before, after, rfl⟩ := List.append_of_mem hcs
  refine Classical.by_contradiction fun hno => ?_
  exact hf before (some cs) after rfl _ (.problem hp (not_exists.mp hno))

/-- Faultless lines describe at most one instance. -/
theorem Describes.unique {lines : List (Option (List Char))} {cnf cnf' : Cnf}
    (hf : Faultless lines) (h : Describes lines cnf) (h' : Describes lines cnf') : cnf = cnf' := by
  obtain ⟨clauses, count⟩ := cnf
  obtain ⟨clauses', count'⟩ := cnf'
  have hclauses : clauses = clauses' := by
    refine h.increasing.eq_of_mem_iff h'.increasing fun d => ?_
    exact (h.mem_clauses d).trans (h'.mem_clauses d).symm
  subst hclauses
  have hcount : count = count' := by
    by_cases hproblem : ∃ cs, some cs ∈ lines ∧ IsProblem cs
    · obtain ⟨cs, hcs, hp⟩ := hproblem
      obtain ⟨n, hn⟩ := hf.exists_declares hcs hp
      exact (h.declared cs hcs hp n hn).trans (h'.declared cs hcs hp n hn).symm
    · have hnone : ∀ cs, some cs ∈ lines → ¬ IsProblem cs :=
        fun cs hcs hp => hproblem ⟨cs, hcs, hp⟩
      exact (h.undeclared hnone).trans (h'.undeclared hnone).symm
  rw [hcount]

theorem takeAll_start_eq_ok_iff {lines : List (Option (List Char))} {cnf : Cnf} :
    Reader.start.takeAll 1 lines = .ok cnf ↔
      Faultless (considered lines) ∧ Describes (considered lines) cnf := by
  have hsettles := tracks_start.settles faultless_nil lines
  rw [List.nil_append, List.length_nil, Nat.zero_add] at hsettles
  cases hrun : Reader.start.takeAll 1 lines with
  | ok cnf' =>
    rw [hrun] at hsettles
    constructor
    · rintro ⟨⟩
      exact hsettles
    · intro h
      rw [hsettles.2.unique h.1 h.2]
  | error e =>
    rw [hrun] at hsettles
    refine iff_of_false (by simp) fun h => ?_
    exact h.1.not_firstFault ((hsettles e).mpr rfl)

theorem takeAll_start_eq_error_iff {lines : List (Option (List Char))} :
    Reader.start.takeAll 1 lines = .error e ↔ FirstFault (considered lines) e := by
  have hsettles := tracks_start.settles faultless_nil lines
  rw [List.nil_append, List.length_nil, Nat.zero_add] at hsettles
  cases hrun : Reader.start.takeAll 1 lines with
  | ok cnf =>
    rw [hrun] at hsettles
    exact iff_of_false (by simp) hsettles.1.not_firstFault
  | error e' =>
    rw [hrun] at hsettles
    rw [hsettles e, Except.error.injEq]
    exact eq_comm

/-- A source of bytes is accepted exactly if none of its lines before an end mark is faulty, and
then the result is the instance that these lines describe; else it is the fault of the first faulty
line. -/
theorem read_iff_grammar (s : Source) :
    (∀ cnf, read s = .ok cnf ↔
      Faultless (considered s.texts) ∧ Describes (considered s.texts) cnf) ∧
    (∀ e, read s = .error e ↔
      ∃ cause, e = .parse cause ∧ FirstFault (considered s.texts) cause) := by
  simp only [← takeAll_start_eq_ok_iff, ← takeAll_start_eq_error_iff, ← s.lines_eq_texts, read]
  cases Reader.start.takeAll 1 s.lines with
  | ok cnf' => simp [Except.mapError]
  | error cause => simp [Except.mapError, eq_comm]

-- a problem line after a clause is held to the atoms of that clause
example : parse "1 5 0\np cnf 3 1\n" = .error (.parse (.atomBound 2)) := by rfl

end Clausal.Dimacs
