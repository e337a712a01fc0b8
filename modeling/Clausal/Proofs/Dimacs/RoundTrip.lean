import Clausal.Dimacs.Render
import Clausal.Proofs.Dimacs.Reading

/-!
# Rendered instances are read back

Every line of a rendered instance is read as what it was written for: the header as a comment, the
problem line as the atom count, and the line of a clause as that clause. Inserting the clauses of a
well-formed instance one by one gives the instance back, so reading what was rendered gives the
instance (`parse_render`). The one exception is an instance with more clauses than a machine word
counts, whose problem line no reader of this library accepts.
-/

namespace Clausal.Dimacs

open Clausal.Text

variable {cnf : Cnf} {c : Clause} {l : Literal}

/-! ## The header and the problem line -/

theorem header_eq :
    header = ['c', ' ', 't', 's', 'e', 'i', 't', 'i', 'n', '_', 'c', 'n', 'f'] := rfl

theorem ofChars_header : Line.ofChars (header ++ ['\n']) = .comment := rfl

theorem problemChars_eq (cnf : Cnf) :
    problemChars cnf = ['p'] ++ ' ' :: (['c', 'n', 'f'] ++ ' ' ::
      (Nat.toDigits 10 cnf.atomCount ++ ' ' :: Nat.toDigits 10 cnf.clauseCount)) := rfl

theorem tokens_problem (cnf : Cnf) :
    tokens (problemChars cnf ++ ['\n']) = [['p'], ['c', 'n', 'f'],
      Nat.toDigits 10 cnf.atomCount, Nat.toDigits 10 cnf.clauseCount] := by
  have hsplit : problemChars cnf ++ ['\n'] = ['p'] ++ ' ' :: (['c', 'n', 'f'] ++ ' ' ::
      (Nat.toDigits 10 cnf.atomCount ++ ' ' :: (Nat.toDigits 10 cnf.clauseCount ++ ['\n']))) := by
    rw [problemChars_eq]
    simp
  rw [← words_eq_tokens, hsplit, words_append_blank (by decide) (by decide) (by decide),
    words_append_blank (by decide) (by decide) (by decide),
    words_append_blank Nat.toDigits_ne_nil (isNumeral_toDigits _).solid (by decide),
    words_append_blank Nat.toDigits_ne_nil (isNumeral_toDigits _).solid (by decide), words_nil]

theorem leading?_problem (cnf : Cnf) : leading? (problemChars cnf ++ ['\n']) = some 'p' := rfl

theorem ofChars_problem (cnf : Cnf) :
    Line.ofChars (problemChars cnf ++ ['\n']) =
      .problem (if cnf.atomCount ≤ atomMax ∧ cnf.clauseCount ≤ 18446744073709551615 then
        some cnf.atomCount else none) := by
  have hfits : cnf.atomCount ≤ atomMax → cnf.atomCount ≤ 4294967295 :=
    fun h => Nat.le_trans h (by decide)
  rw [ofChars_eq, if_neg (by simp [leading?_problem]), if_neg (by simp [leading?_problem]),
    if_pos (leading?_problem cnf), tokens_problem]
  simp only [problem?, unsigned?_toDigits]
  split_ifs <;> simp_all

/-! ## Clause lines -/

theorem signed_chars (h : 0 < l.atom) : IsSigned l.chars l.toInt := by
  unfold Literal.chars Literal.toInt
  cases l.polarity with
  | true => exact .inl ⟨l.atom, by simp, by simp; exact .inl (isNumeral_toDigits _)⟩
  | false => exact .inr ⟨l.atom, Nat.toDigits 10 l.atom, by simp, by simp [h], isNumeral_toDigits _⟩

theorem isLiteral_chars (h : 0 < l.atom ∧ l.atom ≤ atomMax) : IsLiteral l.chars l := by
  have hbounds : l.toInt ≠ 0 ∧ -2147483648 < l.toInt ∧ l.toInt ≤ 2147483647 := by
    unfold atomMax at h
    unfold Literal.toInt
    split <;> omega
  exact ⟨l.toInt, signed_chars h.1, hbounds.1, hbounds.2.1, hbounds.2.2,
    Literal.ofInt_toInt (Nat.ne_of_gt h.1)⟩

theorem isDigit_or_minus_of_mem_chars {x : Char} (hx : x ∈ l.chars) :
    x = '-' ∨ x.isDigit = true := by
  unfold Literal.chars at hx
  split at hx
  · rcases List.mem_cons.mp hx with rfl | hx
    · exact .inl rfl
    · exact .inr ((isNumeral_toDigits _).digits x hx)
  · exact .inr ((isNumeral_toDigits _).digits x hx)

theorem mem_closedChars {x : Char} (hx : x ∈ c.closedChars) :
    x = ' ' ∨ x = '-' ∨ x.isDigit = true := by
  simp only [Clause.closedChars, List.mem_append, List.mem_flatMap, List.mem_singleton] at hx
  rcases hx with ⟨l, -, hx | rfl⟩ | rfl
  · exact .inr (isDigit_or_minus_of_mem_chars hx)
  · exact .inl rfl
  · exact .inr (.inr (by decide))

theorem tokens_closedChars (c : Clause) :
    tokens (c.closedChars ++ ['\n']) = c.map Literal.chars ++ [['0']] := by
  rw [← words_eq_tokens]
  induction c with
  | nil => decide
  | cons l c ih =>
    have hsplit : Clause.closedChars (l :: c) ++ ['\n'] =
        l.chars ++ ' ' :: (Clause.closedChars c ++ ['\n']) := by
      simp [Clause.closedChars]
    have hne : l.chars ≠ [] := by
      unfold Literal.chars
      split <;> simp
    have hsolid : l.chars.all (!isBlank ·) = true := by
      rw [List.all_eq_true]
      intro x hx
      rcases isDigit_or_minus_of_mem_chars hx with rfl | hdigit
      · decide
      · simp [isBlank_of_isDigit hdigit]
    rw [hsplit, words_append_blank hne hsolid (by decide), ih, List.map_cons, List.cons_append]

/-- The line of a clause begins like no other line. -/
theorem leading?_closedChars {x : Char} (h : leading? (c.closedChars ++ ['\n']) = some x) :
    x ≠ 'c' ∧ x ≠ '%' ∧ x ≠ 'p' := by
  have hx := List.mem_of_find?_eq_some h
  rw [List.mem_append, List.mem_singleton] at hx
  rcases hx with hx | rfl
  · rcases mem_closedChars hx with rfl | rfl | hdigit
    · decide
    · decide
    · refine ⟨?_, ?_, ?_⟩ <;> (rintro rfl; contradiction)
  · decide

theorem ofChars_closedChars (h : Cnf.InRange c) :
    Line.ofChars (c.closedChars ++ ['\n']) = .clause (some c) := by
  have hread : (c.map Literal.chars).mapM literal? = some c := by
    rw [mapM_eq_some_iff, List.forall₂_map_left_iff, List.forall₂_same]
    exact fun l hl => literal?_eq_some_iff.mpr (isLiteral_chars (h l hl))
  rw [ofChars_eq, if_neg fun h => (leading?_closedChars h).1 rfl,
    if_neg fun h => (leading?_closedChars h).2.1 rfl,
    if_neg fun h => (leading?_closedChars h).2.2 rfl, tokens_closedChars,
    if_pos List.getLast?_concat, List.dropLast_concat, hread]

/-! ## The whole text -/

/-- No rendered line has a line end in it before its own. -/
theorem newline_notMem_renderLines {line : List Char} (hline : line ∈ renderLines cnf) :
    '\n' ∉ line := by
  have hdigits : ∀ n, '\n' ∉ Nat.toDigits 10 n := by
    intro n hmem
    have hdigit := (isNumeral_toDigits n).digits _ hmem
    contradiction
  simp only [renderLines, List.mem_cons, List.mem_map] at hline
  rcases hline with rfl | rfl | ⟨c, -, rfl⟩
  · rw [header_eq]
    decide
  · rw [problemChars_eq]
    simp [hdigits]
  · intro hmem
    rcases mem_closedChars hmem with h | h | h <;> contradiction

theorem takeAll_closedChars {r : Reader} {cs : List Clause} {n : Nat}
    (hd : r.declared? = some n) (hcs : ∀ c ∈ cs, Cnf.InRange c ∧ c.maxAtom ≤ n) (number : Nat) :
    r.takeAll number (cs.map fun c => some (c.closedChars ++ ['\n'])) =
      .ok (r.cnf.insertAll cs) := by
  induction cs generalizing r number with
  | nil => rfl
  | cons c cs ih =>
    obtain ⟨⟨hrange, hmax⟩, hcs⟩ := List.forall_mem_cons.mp hcs
    have hwithin : ¬ (c.atoms.any (n < ·)) = true := by
      simpa [Clause.atoms] using Clause.maxAtom_le_iff.mp hmax
    have htake : r.take number (.clause (some c)) = .ok { r with cnf := r.cnf.insert c } := by
      simp only [Reader.take, hd, Option.any_some, if_neg hwithin,
        Cnf.addClause_of_inRange _ hrange]
    rw [List.map_cons, takeAll_cons fun h => (leading?_closedChars h).2.1 rfl,
      ofChars_closedChars hrange, htake]
    exact @ih { r with cnf := r.cnf.insert c } hd hcs _

/-- The clauses of a well-formed instance make it up again. -/
theorem insertAll_clauses (h : cnf.WellFormed) :
    (Cnf.empty.declareAtomCount cnf.atomCount).insertAll cnf.clauses = cnf := by
  have hblank := (Cnf.wellFormed_new 0).declareAtomCount cnf.atomCount
  have hcount : (Cnf.empty.declareAtomCount cnf.atomCount).atomCount = cnf.atomCount :=
    Cnf.atomCount_declareAtomCount h.atomCount_le fun c hc => absurd hc List.not_mem_nil
  have hclauses : ((Cnf.empty.declareAtomCount cnf.atomCount).insertAll cnf.clauses).clauses =
      cnf.clauses := by
    refine (Cnf.increasing_insertAll hblank.increasing _).eq_of_mem_iff h.increasing fun d => ?_
    rw [Cnf.mem_clauses_insertAll]
    constructor
    · rintro (hd | ⟨c, hc, rfl⟩)
      · exact absurd hd List.not_mem_nil
      · rwa [h.canonical c hc]
    · intro hd
      exact .inr ⟨d, hd, h.canonical d hd⟩
  have hmax : ∀ c ∈ cnf.clauses,
      c.maxAtom ≤ (Cnf.empty.declareAtomCount cnf.atomCount).atomCount := by
    rw [hcount]
    exact Cnf.maxAtom_le_iff.mp h.maxAtom_le
  exact congrArg₂ Cnf.mk hclauses ((Cnf.atomCount_insertAll_of_le hmax).trans hcount)

/-- Lines without line ends in them are read as they were before they were put together. -/
theorem parseChars_flatMap {lines : List (List Char)} (hlines : ∀ line ∈ lines, '\n' ∉ line) :
    parseChars (lines.flatMap (· ++ ['\n'])) =
      (Reader.start.takeAll 1 ((lines.map (· ++ ['\n'])).map some)).mapError .parse := by
  have hends : ∀ line ∈ lines, ∀ x ∈ line, (x == '\n') = false := by
    intro line hline x hx
    rw [beq_eq_false_iff_ne]
    rintro rfl
    exact hlines line hline hx
  rw [parseChars, lines_flatMap_append_end hends (by decide)]

theorem takeAll_renderLines (h : cnf.WellFormed) (number : Nat) :
    Reader.start.takeAll number (((renderLines cnf).map (· ++ ['\n'])).map some) =
      if cnf.clauseCount ≤ 18446744073709551615 then .ok cnf
      else .error (.problemLine (number + 1)) := by
  have hheader : leading? (header ++ ['\n']) ≠ some '%' := by decide
  have hproblem : leading? (problemChars cnf ++ ['\n']) ≠ some '%' := by simp [leading?_problem]
  have hclauses : ((cnf.clauses.map Clause.closedChars).map (· ++ ['\n'])).map some =
      cnf.clauses.map fun c => some (c.closedChars ++ ['\n']) := by
    simp
  rw [renderLines, List.map_cons, List.map_cons, List.map_cons, List.map_cons, hclauses,
    takeAll_cons hheader, ofChars_header, Reader.take, Except.bind, takeAll_cons hproblem,
    ofChars_problem]
  simp only [h.atomCount_le, true_and]
  split_ifs
  case pos =>
    have htake : Reader.start.take (number + 1) (.problem (some cnf.atomCount)) =
        .ok ⟨Cnf.empty.declareAtomCount cnf.atomCount, some cnf.atomCount⟩ := by
      simp [Reader.take, Reader.start, Cnf.empty, Cnf.new]
    have hcs : ∀ c ∈ cnf.clauses, Cnf.InRange c ∧ c.maxAtom ≤ cnf.atomCount :=
      fun c hc => ⟨h.inRange c hc, Cnf.maxAtom_le_iff.mp h.maxAtom_le c hc⟩
    rw [htake, Except.bind, takeAll_closedChars rfl hcs, insertAll_clauses h]
  case neg => rfl

theorem parse_render (h : cnf.WellFormed) :
    parse (render cnf) = if cnf.clauseCount ≤ 18446744073709551615 then .ok cnf
      else .error (.parse (.problemLine 2)) := by
  rw [parse, render, String.toList_ofList, renderChars,
    parseChars_flatMap fun line hline => newline_notMem_renderLines hline,
    takeAll_renderLines h]
  split_ifs <;> rfl

/-- An instance made by any calls is read back from its rendering. -/
theorem parse_render_editAll (n : Nat) (edits : List Cnf.Edit) :
    let cnf := (Cnf.new n).editAll edits
    parse (render cnf) = if cnf.clauseCount ≤ 18446744073709551615 then .ok cnf
      else .error (.parse (.problemLine 2)) :=
  parse_render ((Cnf.wellFormed_new n).editAll edits)

end Clausal.Dimacs
