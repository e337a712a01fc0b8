import Clausal.Text.Blank

/-!
# Words and lines

The words of a text are its longest runs of characters that are not white space. The lines of a
text are cut after each line end, so they give back the text when put together
(`flatten_lines`); a last line need not have a line end. Lines are cut from characters and from
bytes alike.
-/

namespace Clausal.Text

/-! ## Words -/

/-- The words of a text when the reversed `carry` has been read of the first. -/
def wordsFrom (carry : List Char) : List Char → List (List Char)
  | [] => if carry.isEmpty then [] else [carry.reverse]
  | c :: cs =>
    if isBlank c then
      if carry.isEmpty then wordsFrom [] cs else carry.reverse :: wordsFrom [] cs
    else wordsFrom (c :: carry) cs

/-- The longest runs of characters that are not white space. -/
def words (cs : List Char) : List (List Char) := wordsFrom [] cs

/-! ## Lines -/

variable {α : Type} (isEnd : α → Bool)

/-- The lines of a text when the reversed `carry` has been read of the first. -/
def linesFrom (carry : List α) : List α → List (List α)
  | [] => if carry.isEmpty then [] else [carry.reverse]
  | c :: cs =>
    if isEnd c then (c :: carry).reverse :: linesFrom [] cs
    else linesFrom (c :: carry) cs

/-- Cuts after each line end. Every line but the last has one, and no line is empty. -/
def lines (cs : List α) : List (List α) := linesFrom isEnd [] cs

theorem flatten_linesFrom (carry cs : List α) :
    (linesFrom isEnd carry cs).flatten = carry.reverse ++ cs := by
  induction cs generalizing carry with
  | nil => cases carry <;> simp [linesFrom]
  | cons c cs ih =>
    by_cases h : isEnd c = true <;> simp [linesFrom, h, ih]

theorem flatten_lines (cs : List α) : (lines isEnd cs).flatten = cs := by
  simp [lines, flatten_linesFrom]

end Clausal.Text
