import Clausal.Formula

/-!
# The text of a formula

An atom is written as its name, a negation with `¬` in front, and a conjunction or disjunction in
brackets, its operands separated by `∧` or `∨` between spaces. Brackets are never left out, so the
text shows the tree; only a node with fewer than two operands hides which connective it has.
-/

namespace Clausal

def Connective.chars : Connective → List Char
  | .and => [' ', '∧', ' ']
  | .or => [' ', '∨', ' ']

namespace Formula

mutual

def chars : Formula → List Char
  | var a => a.chars
  | neg f => '¬' :: f.chars
  | node op fs => '(' :: op.chars.intercalate (charsOf fs) ++ [')']

def charsOf : List Formula → List (List Char)
  | [] => []
  | f :: fs => f.chars :: charsOf fs

end

def text (f : Formula) : String := String.ofList f.chars

theorem charsOf_eq_map (fs : List Formula) : charsOf fs = fs.map chars := by
  induction fs with
  | nil => rfl
  | cons f fs ih => simp [charsOf, ih]

end Formula

end Clausal
