import Clausal.Text.Numeral
import Clausal.Text.Words

/-!
# Words, lines and numerals

What the scanners of a text compute, in the terms of the standard library: words are the pieces
between white space that are not empty (`words_eq_filter_splitOnP`), lines are the pieces between
line ends with their line ends put back (`linesFrom_eq_splitOnPPrepend`), and a numeral is a run of
digits with the value of the run in base ten (`natural?_eq_some_iff`).
-/

namespace Clausal.Text

/-! ## Words -/

theorem wordsFrom_eq_filter (carry cs : List Char) :
    wordsFrom carry cs = (cs.splitOnPPrepend isBlank carry).filter (· ≠ []) := by
  induction cs generalizing carry with
  | nil => cases carry <;> simp [wordsFrom]
  | cons c cs ih =>
    rw [List.splitOnPPrepend_cons_eq_if]
    by_cases hc : isBlank c = true
    · cases carry <;> simp [wordsFrom, hc, ih]
    · simp [wordsFrom, hc, ih]

theorem words_eq_filter_splitOnP (cs : List Char) :
    words cs = (cs.splitOnP isBlank).filter (· ≠ []) :=
  wordsFrom_eq_filter [] cs

theorem words_nil : words [] = [] := rfl

/-- A word that a blank ends is the first word. -/
theorem words_append_blank {w cs : List Char} {b : Char} (hw : w ≠ [])
    (hsolid : w.all (!isBlank ·) = true) (hb : isBlank b = true) :
    words (w ++ b :: cs) = w :: words cs := by
  have hnot : ∀ c ∈ w, isBlank c = false := by simpa using hsolid
  rw [words_eq_filter_splitOnP, words_eq_filter_splitOnP,
    List.splitOnP_append_cons_of_forall_mem hnot b hb, List.filter_cons_of_pos (by simpa using hw)]

/-! ## Lines -/

section Lines

variable {α : Type} {isEnd : α → Bool} {xs cs : List α}

theorem linesFrom_append (hxs : ∀ x ∈ xs, isEnd x = false) (carry : List α) :
    linesFrom isEnd carry (xs ++ cs) = linesFrom isEnd (xs.reverse ++ carry) cs := by
  induction xs generalizing carry with
  | nil => rfl
  | cons x xs ih =>
    obtain ⟨hx, hxs⟩ := List.forall_mem_cons.mp hxs
    simp [linesFrom, hx, ih hxs]

theorem lines_append_end {e : α} (hxs : ∀ x ∈ xs, isEnd x = false) (he : isEnd e = true) :
    lines isEnd (xs ++ e :: cs) = (xs ++ [e]) :: lines isEnd cs := by
  rw [lines, linesFrom_append hxs]
  simp [linesFrom, he, lines]

/-- No piece between line ends has one in it. -/
theorem eq_false_of_mem_splitOnPPrepend {carry piece : List α}
    (hcarry : ∀ x ∈ carry, isEnd x = false) (hpiece : piece ∈ cs.splitOnPPrepend isEnd carry) :
    ∀ x ∈ piece, isEnd x = false := by
  induction cs generalizing carry with
  | nil => simp_all
  | cons c cs ih =>
    rw [List.splitOnPPrepend_cons_eq_if] at hpiece
    cases hc : isEnd c with
    | true =>
      rw [if_pos hc] at hpiece
      rcases List.mem_cons.mp hpiece with rfl | hpiece
      · simpa using hcarry
      · exact @ih [] (by simp) hpiece
    | false =>
      rw [if_neg (by simp [hc])] at hpiece
      exact ih (List.forall_mem_cons.mpr ⟨hc, hcarry⟩) hpiece

/-- The lines of a text are its pieces between line ends, each but the last with its line end. What
follows the last line end is a line unless it is empty. -/
theorem linesFrom_eq_splitOnPPrepend [BEq α] [LawfulBEq α] {e : α} (carry : List α) :
    linesFrom (· == e) carry cs =
      (cs.splitOnPPrepend (· == e) carry).dropLast.map (· ++ [e]) ++
        ((cs.splitOnPPrepend (· == e) carry).getLast?.filter (!·.isEmpty)).toList := by
  induction cs generalizing carry with
  | nil => cases carry <;> simp [linesFrom, Option.filter]
  | cons c cs ih =>
    rw [List.splitOnPPrepend_cons_eq_if]
    by_cases hc : (c == e) = true
    · obtain rfl := eq_of_beq hc
      obtain ⟨piece, pieces, hsplit⟩ :=
        List.exists_cons_of_ne_nil (List.splitOnP_ne_nil (· == c) cs)
      have htail := ih []
      rw [List.splitOnPPrepend_nil_right, hsplit] at htail
      simp only [linesFrom, beq_self_eq_true, ↓reduceIte, htail, hsplit]
      simp
    · simp only [linesFrom, hc, ih]
      simp

/-- Lines that were each ended with a line end are read back. -/
theorem lines_flatMap_append_end {e : α} {ls : List (List α)}
    (hls : ∀ l ∈ ls, ∀ x ∈ l, isEnd x = false) (he : isEnd e = true) :
    lines isEnd (ls.flatMap (· ++ [e])) = ls.map (· ++ [e]) := by
  induction ls with
  | nil => rfl
  | cons l ls ih =>
    obtain ⟨hl, hls⟩ := List.forall_mem_cons.mp hls
    rw [List.flatMap_cons, List.append_assoc, List.singleton_append, lines_append_end hl he,
      ih hls, List.map_cons]

/-- Replacing members by lists keeps the lines, if ends become ends and other members become
lists without ends. -/
theorem linesFrom_flatMap {β : Type} {isEnd' : β → Bool} {f : α → List β}
    (hend : ∀ a, isEnd a = true → ∃ b, f a = [b] ∧ isEnd' b = true)
    (hnot : ∀ a, isEnd a = false → f a ≠ [] ∧ ∀ b ∈ f a, isEnd' b = false) (carry : List α) :
    linesFrom isEnd' (carry.reverse.flatMap f).reverse (cs.flatMap f) =
      (linesFrom isEnd carry cs).map (·.flatMap f) := by
  induction cs generalizing carry with
  | nil =>
    have hne : ∀ a, f a ≠ [] := by
      intro a
      cases ha : isEnd a with
      | true =>
        obtain ⟨b, hb, -⟩ := hend a ha
        simp [hb]
      | false => exact (hnot a ha).1
    cases carry <;> simp [linesFrom, hne]
  | cons c cs ih =>
    rw [List.flatMap_cons]
    cases hc : isEnd c with
    | true =>
      obtain ⟨b, hb, hbend⟩ := hend c hc
      have htail := ih []
      simp only [List.reverse_nil, List.flatMap_nil] at htail
      simp [linesFrom, hb, hbend, hc, htail]
    | false =>
      rw [linesFrom_append (hnot c hc).2]
      have htail := ih (c :: carry)
      simp only [List.reverse_cons, List.flatMap_append, List.flatMap_singleton,
        List.reverse_append] at htail
      simp [linesFrom, hc, htail]

end Lines

/-! ## Numerals -/

/-- The text is a run of at least one ASCII digit, which stands for `n` in base ten. -/
structure IsNumeral (cs : List Char) (n : Nat) : Prop where
  ne_nil : cs ≠ []
  digits : ∀ c ∈ cs, c.isDigit = true
  value : Nat.ofDigitChars 10 cs 0 = n

/-- A numeral, perhaps after a plus sign. -/
def IsUnsigned (cs : List Char) (n : Nat) : Prop :=
  IsNumeral cs n ∨ ∃ ds, cs = '+' :: ds ∧ IsNumeral ds n

/-- A numeral, perhaps after a sign. -/
def IsSigned (cs : List Char) (i : Int) : Prop :=
  (∃ n : Nat, i = n ∧ IsUnsigned cs n) ∨ ∃ (n : Nat) (ds : List Char),
    i = -n ∧ cs = '-' :: ds ∧ IsNumeral ds n

theorem digit?_eq (c : Char) :
    digit? c = if c.isDigit then some (c.toNat - '0'.toNat) else none := by
  simp [digit?, Char.isDigit, Char.le_def]

theorem digitsFrom_eq_some_iff {cs : List Char} {m n : Nat} :
    digitsFrom m cs = some n ↔ (∀ c ∈ cs, c.isDigit = true) ∧ Nat.ofDigitChars 10 cs m = n := by
  induction cs generalizing m with
  | nil => simp [digitsFrom]
  | cons c cs ih =>
    rw [digitsFrom, digit?_eq, Nat.ofDigitChars_cons, List.forall_mem_cons]
    by_cases hc : c.isDigit = true
    · simp only [hc, ↓reduceIte, ih, true_and]
    · simp [hc]

theorem natural?_eq_some_iff {cs : List Char} {n : Nat} :
    natural? cs = some n ↔ IsNumeral cs n := by
  unfold natural?
  split
  case isTrue hnil =>
    have hcs : cs = [] := List.isEmpty_iff.mp hnil
    exact iff_of_false (by simp) fun h => h.ne_nil hcs
  case isFalse hnil =>
    rw [digitsFrom_eq_some_iff]
    exact ⟨fun h => ⟨by simpa using hnil, h.1, h.2⟩, fun h => ⟨h.digits, h.value⟩⟩

/-- A sign is no digit, so a text that begins with one is not a numeral. -/
theorem not_isNumeral_cons {c : Char} (hc : c.isDigit = false) (cs : List Char) (n : Nat) :
    ¬ IsNumeral (c :: cs) n := by
  intro h
  have hdigit := h.digits c List.mem_cons_self
  simp [hc] at hdigit

theorem unsigned?_eq_some_iff {most n : Nat} {cs : List Char} :
    unsigned? most cs = some n ↔ IsUnsigned cs n ∧ n ≤ most := by
  unfold unsigned? IsUnsigned
  split
  case h_1 ds =>
    simp [Option.filter_eq_some_iff, natural?_eq_some_iff, not_isNumeral_cons]
  case h_2 hplus =>
    have hno : ∀ ds, cs ≠ '+' :: ds := hplus
    simp [Option.filter_eq_some_iff, natural?_eq_some_iff, hno]

theorem signed?_eq_some_iff {least most i : Int} {cs : List Char} :
    signed? least most cs = some i ↔ IsSigned cs i ∧ least ≤ i ∧ i ≤ most := by
  unfold signed? IsSigned IsUnsigned
  simp only [Option.filter_eq_some_iff, Bool.and_eq_true, decide_eq_true_eq]
  refine and_congr ?_ Iff.rfl
  split
  case h_1 | h_2 ds =>
    simp [Option.bind_eq_some_iff, natural?_eq_some_iff, not_isNumeral_cons, and_comm,
      @eq_comm _ i]
  case h_3 hminus hplus =>
    have hnominus : ∀ ds, cs ≠ '-' :: ds := hminus
    have hnoplus : ∀ ds, cs ≠ '+' :: ds := hplus
    simp [Option.bind_eq_some_iff, natural?_eq_some_iff, hnominus, hnoplus, and_comm,
      @eq_comm _ i]

theorem isNumeral_toDigits (n : Nat) : IsNumeral (Nat.toDigits 10 n) n where
  ne_nil := Nat.toDigits_ne_nil
  digits _ hc := Nat.isDigit_of_mem_toDigits (by decide) (by decide) hc
  value := Nat.ofDigitChars_ten_toDigits

/-- A numeral ends where no digit follows. -/
theorem IsNumeral.append_inj {cs ds rest rest' : List Char} {m n : Nat} (h : IsNumeral cs m)
    (h' : IsNumeral ds n) (hrest : rest.takeWhile Char.isDigit = [])
    (hrest' : rest'.takeWhile Char.isDigit = []) (heq : cs ++ rest = ds ++ rest') :
    m = n ∧ rest = rest' := by
  have htake := congrArg (List.takeWhile Char.isDigit) heq
  rw [List.takeWhile_append_of_pos h.digits, List.takeWhile_append_of_pos h'.digits, hrest, hrest',
    List.append_nil, List.append_nil] at htake
  subst htake
  exact ⟨h.value.symm.trans h'.value, List.append_cancel_left heq⟩

theorem unsigned?_toDigits (most n : Nat) :
    unsigned? most (Nat.toDigits 10 n) = if n ≤ most then some n else none := by
  have hdigits := isNumeral_toDigits n
  unfold unsigned?
  split
  case h_1 ds heq =>
    rw [heq] at hdigits
    exact absurd hdigits (not_isNumeral_cons (by decide) ds n)
  case h_2 =>
    rw [natural?_eq_some_iff.mpr hdigits]
    simp [Option.filter]

/-- No digit is white space. -/
theorem isBlank_of_isDigit {c : Char} (hc : c.isDigit = true) : isBlank c = false := by
  have hrange : 48 ≤ c.toNat ∧ c.toNat ≤ 57 := by
    simp only [Char.isDigit, UInt32.le_iff_toNat_le, Bool.and_eq_true, decide_eq_true_eq] at hc
    exact hc
  simp only [isBlank, blankRanges, List.any_cons, List.any_nil, Bool.or_eq_false_iff,
    Bool.and_eq_false_iff, decide_eq_false_iff_not, and_true]
  omega

theorem IsNumeral.solid {cs : List Char} {n : Nat} (h : IsNumeral cs n) :
    cs.all (!isBlank ·) = true :=
  List.all_eq_true.mpr fun c hc => by simp [isBlank_of_isDigit (h.digits c hc)]

end Clausal.Text
