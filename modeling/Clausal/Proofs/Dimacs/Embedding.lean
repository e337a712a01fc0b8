import Clausal.Proofs.Dimacs.RoundTrip

/-!
# Instances among other lines

A reader passes over comments and over every line that is neither a problem nor a clause. So a
rendered instance is read back also from the middle of a longer text, if the other lines of it are
of this kind (`parseChars_around`). What is read of any source is an instance that calls could have
made, with no more clauses than the source has bytes.
-/

namespace Clausal.Dimacs

open Clausal.Text

variable {r r' : Reader} {cnf : Cnf} {cs : List Char} {n : Nat}

/-! ## Lines that are passed over -/

/-- A line that says nothing of the instance and does not end it. -/
def IsIdle (cs : List Char) : Prop := Line.ofChars cs = .comment ∨ Line.ofChars cs = .other

theorem IsIdle.leading?_ne (h : IsIdle cs) : leading? cs ≠ some '%' := by
  intro hstop
  rw [IsIdle, ofChars_eq_stop_iff.mpr hstop] at h
  rcases h with h | h <;> cases h

theorem IsIdle.take (h : IsIdle cs) (r : Reader) (n : Nat) :
    r.take n (Line.ofChars cs) = .ok r := by
  rcases h with h | h <;> rw [h] <;> rfl

theorem isIdle_of_leading? (h : leading? cs = some 'c') : IsIdle cs := by
  left
  rw [ofChars_eq, if_pos h]

theorem takeAll_idle_append {front : List (List Char)} (hfront : ∀ cs ∈ front, IsIdle cs)
    (r : Reader) (n : Nat) (rest : List (Option (List Char))) :
    r.takeAll n (front.map some ++ rest) = r.takeAll (n + front.length) rest := by
  induction front generalizing n with
  | nil => rfl
  | cons cs front ih =>
    obtain ⟨hcs, hfront⟩ := List.forall_mem_cons.mp hfront
    rw [List.map_cons, List.cons_append, takeAll_cons hcs.leading?_ne, hcs.take, Except.bind,
      ih hfront, List.length_cons, Nat.add_assoc, Nat.add_comm 1]

theorem takeAll_append_idle {back : List (List Char)} (hback : ∀ cs ∈ back, IsIdle cs)
    (r : Reader) (n : Nat) (lines : List (Option (List Char))) :
    r.takeAll n (lines ++ back.map some) = r.takeAll n lines := by
  induction lines generalizing r n with
  | nil =>
    have h := takeAll_idle_append hback r n []
    rwa [List.append_nil] at h
  | cons line lines ih =>
    cases line with
    | none => rfl
    | some cs =>
      rw [List.cons_append]
      by_cases hstop : leading? cs = some '%'
      · rw [takeAll_cons_of_stop hstop, takeAll_cons_of_stop hstop]
      · rw [takeAll_cons hstop, takeAll_cons hstop]
        cases r.take n (Line.ofChars cs) with
        | error e => rfl
        | ok r' => exact ih r' (n + 1)

/-! ## Instances that are read -/

/-- A line that is taken in changes the instance as a call does, or not at all. -/
theorem cnf_of_take {line : Line} (h : r.take n line = .ok r') :
    r'.cnf = r.cnf ∨ ∃ e : Cnf.Edit, r'.cnf = r.cnf.edit e := by
  cases line with
  | comment | stop | other =>
    cases h
    exact .inl rfl
  | problem atomCount? =>
    simp only [Reader.take] at h
    split at h
    case h_1 m _ =>
      split at h
      case isTrue => cases h
      case isFalse =>
        cases h
        exact .inr ⟨.declare m, rfl⟩
    case h_2 => cases h
  | clause clause? =>
    cases clause? with
    | none => cases h
    | some c =>
      simp only [Reader.take] at h
      split at h
      case isTrue => cases h
      case isFalse =>
        cases hadd : r.cnf.addClause c with
        | error fault =>
          rw [hadd] at h
          cases h
        | ok made =>
          rw [hadd] at h
          cases h
          exact .inr ⟨.add c, by rw [Cnf.edit, hadd]⟩

/-- Lines that can be read give an instance that calls make of the one before, at most one for each
line. -/
theorem exists_edits_of_takeAll {lines : List (Option (List Char))}
    (h : r.takeAll n lines = .ok cnf) :
    ∃ edits : List Cnf.Edit, edits.length ≤ lines.countP Option.isSome ∧
      cnf = r.cnf.editAll edits := by
  induction lines generalizing r n with
  | nil =>
    cases h
    exact ⟨[], Nat.le_refl 0, rfl⟩
  | cons line lines ih =>
    cases line with
    | none => cases h
    | some cs =>
      rw [List.countP_cons_of_pos rfl]
      by_cases hstop : leading? cs = some '%'
      · rw [takeAll_cons_of_stop hstop] at h
        cases h
        exact ⟨[], Nat.zero_le _, rfl⟩
      · rw [takeAll_cons hstop] at h
        cases htake : r.take n (Line.ofChars cs) with
        | error e =>
          rw [htake] at h
          cases h
        | ok r' =>
          rw [htake] at h
          obtain ⟨edits, hlength, rfl⟩ := ih h
          rcases cnf_of_take htake with heq | ⟨e, heq⟩
          · exact ⟨edits, Nat.le_succ_of_le hlength, by rw [heq]⟩
          · exact ⟨e :: edits, Nat.succ_le_succ hlength, by rw [heq]; rfl⟩

/-! ## What is read of a source -/

theorem length_linesFrom_le {α : Type} (isEnd : α → Bool) (carry xs : List α) :
    (linesFrom isEnd carry xs).length ≤ carry.length + xs.length := by
  induction xs generalizing carry with
  | nil => cases carry <;> simp [linesFrom]
  | cons x xs ih =>
    rw [linesFrom]
    split
    · have hrest := ih []
      simp only [List.length_cons, List.length_nil] at hrest ⊢
      omega
    · have hrest := ih (x :: carry)
      simp only [List.length_cons] at hrest ⊢
      omega

/-- No line is empty, so a source has no more lines than bytes. -/
theorem Source.countP_lines_le (s : Source) :
    s.lines.countP Option.isSome ≤ s.bytes.length := by
  have hlines : (Text.lines isLineEnd s.bytes).length ≤ s.bytes.length := by
    have h := length_linesFrom_le isLineEnd [] s.bytes
    rwa [List.length_nil, Nat.zero_add] at h
  unfold Source.lines
  split
  · refine le_trans ?_ hlines
    rw [List.countP_append]
    refine le_trans ?_ (List.length_filter_le (fun line => line.any isLineEnd) _)
    exact List.countP_le_length.trans (List.length_map _).le
  · exact (List.countP_le_length.trans (List.length_map _).le).trans hlines

theorem exists_edits_of_read {s : Source} (h : read s = .ok cnf) :
    ∃ edits : List Cnf.Edit, edits.length ≤ s.bytes.length ∧
      cnf = Cnf.empty.editAll edits := by
  cases htake : Reader.start.takeAll 1 s.lines with
  | error e =>
    rw [read, htake] at h
    cases h
  | ok cnf' =>
    rw [read, htake] at h
    cases h
    obtain ⟨edits, hlength, rfl⟩ := exists_edits_of_takeAll htake
    exact ⟨edits, hlength.trans s.countP_lines_le, rfl⟩

theorem wellFormed_of_read {s : Source} (h : read s = .ok cnf) : cnf.WellFormed := by
  obtain ⟨edits, -, rfl⟩ := exists_edits_of_read h
  exact (Cnf.wellFormed_new 0).editAll edits

theorem clauseCount_le_of_read {s : Source} (h : read s = .ok cnf) :
    cnf.clauseCount ≤ s.bytes.length := by
  obtain ⟨edits, hlength, rfl⟩ := exists_edits_of_read h
  refine (Cnf.clauseCount_editAll_le Cnf.empty edits).trans ?_
  have hempty : Cnf.empty.clauseCount = 0 := rfl
  omega

/-! ## Rendered instances -/

/-- A rendered instance is read back from among lines that are passed over. -/
theorem parseChars_around {front back : List (List Char)} (h : cnf.WellFormed)
    (hcount : cnf.clauseCount ≤ 18446744073709551615)
    (hfront : ∀ line ∈ front, '\n' ∉ line ∧ IsIdle (line ++ ['\n']))
    (hback : ∀ line ∈ back, '\n' ∉ line ∧ IsIdle (line ++ ['\n'])) :
    parseChars ((front ++ (renderLines cnf ++ back)).flatMap (· ++ ['\n'])) = .ok cnf := by
  have hlines : ∀ line ∈ front ++ (renderLines cnf ++ back), '\n' ∉ line := by
    intro line hline
    rcases List.mem_append.mp hline with hline | hline
    · exact (hfront line hline).1
    · rcases List.mem_append.mp hline with hline | hline
      · exact newline_notMem_renderLines hline
      · exact (hback line hline).1
  rw [parseChars_flatMap hlines, List.map_append, List.map_append, List.map_append,
    List.map_append, takeAll_idle_append, takeAll_append_idle, takeAll_renderLines h, if_pos hcount]
  · rfl
  · exact List.forall_mem_map.mpr fun line hline => (hback line hline).2
  · exact List.forall_mem_map.mpr fun line hline => (hfront line hline).2

end Clausal.Dimacs
