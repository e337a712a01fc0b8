import Mathlib.Data.List.TakeWhile
import Mathlib.Data.List.Forall2
import Clausal.Proofs.Dimacs.Lines

/-!
# The grammar of a DIMACS text

What the lines of an instance may be, in words and numerals and without reference to a reader. A
line is a problem line, a clause line, or neither; what may be wrong with it depends on the lines
before it (`Fault`). The lines that count are those before an end mark (`considered`). They describe
an instance (`Describes`) if none of them is faulty (`Faultless`), and else they have a first fault
(`FirstFault`).

The classification of lines agrees with the grammar: `ofChars_eq_stop_iff` and `ofChars_cases`.
-/

namespace Clausal.Dimacs

open Clausal.Text

/-! ## Forms of lines -/

/-- The first character that is not white space. -/
def leading? (cs : List Char) : Option Char := cs.find? fun c => !isBlank c

/-- The pieces between white space that are not empty. -/
def tokens (cs : List Char) : List (List Char) := (cs.splitOnP isBlank).filter (· ≠ [])

/-- A problem line begins with `p`, apart from white space. -/
def IsProblem (cs : List Char) : Prop := leading? cs = some 'p'

/-- A clause line ends with the token `0` and begins like no comment and no problem line. -/
def IsClause (cs : List Char) : Prop :=
  leading? cs ≠ some 'c' ∧ leading? cs ≠ some 'p' ∧ (tokens cs).getLast? = some ['0']

/-- A problem line declares `n` atoms: it has exactly the tokens `p`, `cnf`, `n` and a number that
fits a machine word of 64 bits. -/
def Declares (cs : List Char) (n : Nat) : Prop :=
  ∃ atoms clauses m, tokens cs = [['p'], ['c', 'n', 'f'], atoms, clauses] ∧
    IsUnsigned atoms n ∧ n ≤ atomMax ∧ IsUnsigned clauses m ∧ m ≤ 18446744073709551615

/-- A token is a literal: an integer of 32 bits, neither 0 nor the least one. -/
def IsLiteral (word : List Char) (l : Literal) : Prop :=
  ∃ i, IsSigned word i ∧ i ≠ 0 ∧ -2147483648 < i ∧ i ≤ 2147483647 ∧ Literal.ofInt i = l

/-- The tokens of a clause line before its closing zero are the literals of `c`. -/
def Spells (cs : List Char) (c : Clause) : Prop := List.Forall₂ IsLiteral (tokens cs).dropLast c

/-! ## Faults -/

/-- What is wrong with a line, given the lines before it. A line that cannot be read is `none`. -/
inductive Fault (before : List (Option (List Char))) : Option (List Char) → ParseError → Prop
  | unreadable : Fault before none (.unreadable (before.length + 1))
  /-- A second problem line. -/
  | repeated {cs ds} : IsProblem cs → some ds ∈ before → IsProblem ds →
      Fault before (some cs) (.problemLine (before.length + 1))
  /-- A malformed problem line. -/
  | problem {cs} : IsProblem cs → (∀ n, ¬ Declares cs n) →
      Fault before (some cs) (.problemLine (before.length + 1))
  /-- A problem line that declares fewer atoms than a clause before it has. -/
  | late {cs ds c l n} : IsProblem cs → (∀ es, some es ∈ before → ¬ IsProblem es) →
      Declares cs n → some ds ∈ before → IsClause ds → Spells ds c → l ∈ c → n < l.atom →
      Fault before (some cs) (.atomBound (before.length + 1))
  /-- A clause line with a token that is no literal. -/
  | clause {cs} : IsClause cs → (∀ c, ¬ Spells cs c) →
      Fault before (some cs) (.clauseLine (before.length + 1))
  /-- A clause line with an atom above the number declared before it. -/
  | bound {cs ds c l n} : IsClause cs → Spells cs c → some ds ∈ before → IsProblem ds →
      Declares ds n → l ∈ c → n < l.atom →
      Fault before (some cs) (.atomBound (before.length + 1))

/-- No line is faulty. -/
def Faultless (lines : List (Option (List Char))) : Prop :=
  ∀ before line after, lines = before ++ line :: after → ∀ e, ¬ Fault before line e

/-- The first faulty line has the fault `e`. -/
def FirstFault (lines : List (Option (List Char))) (e : ParseError) : Prop :=
  ∃ before line after, lines = before ++ line :: after ∧ Faultless before ∧ Fault before line e

/-- The lines before the first readable one whose first character other than white space is `%`. -/
def considered (lines : List (Option (List Char))) : List (Option (List Char)) :=
  lines.takeWhile fun line => line.bind leading? ≠ some '%'

/-- The instance that lines describe: its clauses are the canonical forms of those on the clause
lines, and its atom count is the declared one or else the greatest atom of a clause. -/
structure Describes (lines : List (Option (List Char))) (cnf : Cnf) : Prop where
  increasing : Ordered.Increasing Cnf.clauseOrder cnf.clauses
  mem_clauses : ∀ d, d ∈ cnf.clauses ↔
    ∃ cs, some cs ∈ lines ∧ IsClause cs ∧ ∃ c, Spells cs c ∧ c.canonical = d
  declared : ∀ cs, some cs ∈ lines → IsProblem cs → ∀ n, Declares cs n → cnf.atomCount = n
  undeclared : (∀ cs, some cs ∈ lines → ¬ IsProblem cs) → cnf.atomCount = cnf.maxAtom

/-! ## Classification of lines -/

theorem words_eq_tokens (cs : List Char) : words cs = tokens cs := words_eq_filter_splitOnP cs

theorem literal?_eq_some_iff {word : List Char} {l : Literal} :
    literal? word = some l ↔ IsLiteral word l := by
  have hrange : ∀ i : Int, (Literal.ofInt i).atom ≠ 0 ∧ (Literal.ofInt i).atom ≤ atomMax ∧
      -2147483648 ≤ i ∧ i ≤ 2147483647 ↔ i ≠ 0 ∧ -2147483648 < i ∧ i ≤ 2147483647 := by
    intro i
    simp only [Literal.ofInt, atomMax]
    omega
  simp only [literal?, IsLiteral, Option.filter_eq_some_iff, Option.map_eq_some_iff,
    signed?_eq_some_iff, Bool.and_eq_true, decide_eq_true_eq]
  constructor
  · rintro ⟨⟨i, ⟨hi, hlow, hhigh⟩, rfl⟩, hne, hmax⟩
    exact ⟨i, hi, ((hrange i).mp ⟨hne, hmax, hlow, hhigh⟩).imp_right (·.imp_right (⟨·, rfl⟩))⟩
  · rintro ⟨i, hi, hne, hlow, hhigh, rfl⟩
    obtain ⟨hatom, hmax, hlow, -⟩ := (hrange i).mpr ⟨hne, hlow, hhigh⟩
    exact ⟨⟨i, ⟨hi, hlow, hhigh⟩, rfl⟩, hatom, hmax⟩

theorem mapM_eq_some_iff {α β : Type} {f : α → Option β} {xs : List α} {ys : List β} :
    xs.mapM f = some ys ↔ List.Forall₂ (fun x y => f x = some y) xs ys := by
  induction xs generalizing ys with
  | nil => simp [eq_comm]
  | cons x xs ih =>
    cases ys with
    | nil => simp [Option.bind_eq_some_iff]
    | cons y ys => simp [Option.bind_eq_some_iff, ih]

theorem spells_iff {cs : List Char} {c : Clause} :
    (tokens cs).dropLast.mapM literal? = some c ↔ Spells cs c := by
  simp only [mapM_eq_some_iff, literal?_eq_some_iff, Spells]

theorem problem?_numbers_eq_some_iff {atoms clauses : List Char} {n : Nat} :
    problem? [['p'], ['c', 'n', 'f'], atoms, clauses] = some n ↔
      ∃ m, unsigned? 4294967295 atoms = some n ∧
        unsigned? 18446744073709551615 clauses = some m ∧ n ≤ atomMax := by
  simp only [problem?]
  split
  case h_1 i m hi hm =>
    rw [hi, hm, Option.ite_none_right_eq_some]
    constructor
    · rintro ⟨hmax, ⟨⟩⟩
      exact ⟨m, rfl, rfl, hmax⟩
    · rintro ⟨_, ⟨⟩, -, hmax⟩
      exact ⟨hmax, rfl⟩
  case h_2 hnone =>
    refine iff_of_false (by simp) ?_
    rintro ⟨m, hn, hm, -⟩
    exact hnone n m hn hm

theorem problem?_eq_some_iff {cs : List Char} {n : Nat} :
    problem? (tokens cs) = some n ↔ Declares cs n := by
  unfold Declares
  generalize tokens cs = ws
  constructor
  · intro h
    have hform : ∃ atoms clauses, ws = [['p'], ['c', 'n', 'f'], atoms, clauses] := by
      unfold problem? at h
      split at h
      case h_1 atoms clauses => exact ⟨atoms, clauses, rfl⟩
      case h_2 => simp at h
    obtain ⟨atoms, clauses, rfl⟩ := hform
    obtain ⟨m, hn, hm, hmax⟩ := problem?_numbers_eq_some_iff.mp h
    obtain ⟨hm, hword⟩ := unsigned?_eq_some_iff.mp hm
    exact ⟨atoms, clauses, m, rfl, (unsigned?_eq_some_iff.mp hn).1, hmax, hm, hword⟩
  · rintro ⟨atoms, clauses, m, rfl, hn, hmax, hm, hword⟩
    -- an atom count within its bound fits 32 bits
    have hfits : n ≤ 4294967295 := Nat.le_trans hmax (by decide)
    exact problem?_numbers_eq_some_iff.mpr
      ⟨m, unsigned?_eq_some_iff.mpr ⟨hn, hfits⟩, unsigned?_eq_some_iff.mpr ⟨hm, hword⟩, hmax⟩

theorem head?_dropWhile_eq_leading? (cs : List Char) :
    (cs.dropWhile isBlank).head? = leading? cs :=
  (List.find?_not_eq_head?_dropWhile ..).symm

/-- The reader tells lines by their first character that is not white space and by their tokens. -/
theorem ofChars_eq (cs : List Char) :
    Line.ofChars cs =
      if leading? cs = some 'c' then .comment
      else if leading? cs = some '%' then .stop
      else if leading? cs = some 'p' then .problem (problem? (tokens cs))
      else if (tokens cs).getLast? = some ['0'] then
        .clause ((tokens cs).dropLast.mapM literal?)
      else .other := by
  rw [← head?_dropWhile_eq_leading?, Line.ofChars, words_eq_tokens]
  split
  case h_1 heq => simp [heq]
  case h_2 heq => simp [heq]
  case h_3 heq => simp [heq]
  case h_4 hcomment hstop hproblem =>
    have hnot : ∀ c, (∀ rest, cs.dropWhile isBlank ≠ c :: rest) →
        (cs.dropWhile isBlank).head? ≠ some c := by
      intro c hc heq
      obtain ⟨rest, hrest⟩ := List.head?_eq_some_iff.mp heq
      exact hc rest hrest
    rw [if_neg (hnot _ hcomment), if_neg (hnot _ hstop), if_neg (hnot _ hproblem)]

theorem ofChars_eq_stop_iff {cs : List Char} :
    Line.ofChars cs = .stop ↔ leading? cs = some '%' := by
  rw [ofChars_eq]
  split_ifs <;> simp_all

/-- A line that is no end mark is told in the same way by the reader and by the grammar. -/
theorem ofChars_cases {cs : List Char} (hstop : leading? cs ≠ some '%') :
    (IsProblem cs ∧ Line.ofChars cs = .problem (problem? (tokens cs))) ∨
    (IsClause cs ∧ Line.ofChars cs = .clause ((tokens cs).dropLast.mapM literal?)) ∨
    (¬ IsProblem cs ∧ ¬ IsClause cs ∧ (Line.ofChars cs = .comment ∨ Line.ofChars cs = .other)) := by
  unfold IsProblem IsClause
  rw [ofChars_eq]
  split_ifs <;> simp_all

end Clausal.Dimacs
