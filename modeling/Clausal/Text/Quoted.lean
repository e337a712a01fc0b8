import Clausal.Text.Visible

/-!
# Quoted text

A text is shown between double quotes. Quotes and backslashes are written after a backslash, the
usual control characters by their letters, and every other character that would not show by its code
point in braces. A quoted text therefore stays on one line.
-/

namespace Clausal.Text

/-- A character as it stands between the quotes. -/
def quotedChar (c : Char) : List Char :=
  if c = '\t' then ['\\', 't']
  else if c = '\n' then ['\\', 'n']
  else if c = '\r' then ['\\', 'r']
  else if c = '\x00' then ['\\', '0']
  else if c = '"' || c = '\'' || c = '\\' then ['\\', c]
  else if isVisible c then [c]
  else '\\' :: 'u' :: '\x7b' :: Nat.toDigits 16 c.toNat ++ ['\x7d']

/-- A text between double quotes. -/
def quoted (cs : List Char) : List Char := '"' :: cs.flatMap quotedChar ++ ['"']

end Clausal.Text
