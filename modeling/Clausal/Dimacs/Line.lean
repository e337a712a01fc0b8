import Clausal.Cnf
import Clausal.Text.Numeral
import Clausal.Text.Words

/-!
# Lines of a DIMACS text

A line is told by its first character that is not white space, and where that settles nothing, by
its last word.
-/

namespace Clausal.Dimacs

open Clausal.Text

/-- What a line says. The line of a problem or a clause says nothing usable if it is malformed. -/
inductive Line where
  /-- A line that begins with `c`. -/
  | comment
  /-- A line that begins with `%`, which ends the instance. -/
  | stop
  /-- A line that begins with `p`, and the atom count it declares. -/
  | problem (atomCount? : Option Nat)
  /-- A line whose last word is `0`, and the clause before it. -/
  | clause (clause? : Option Clause)
  /-- Any other line. -/
  | other
deriving DecidableEq

/-- A literal of a clause line: an integer of 32 bits, neither 0 nor the least one. -/
def literal? (word : List Char) : Option Literal :=
  ((signed? (-2147483648) 2147483647 word).map Literal.ofInt).filter fun l =>
    l.atom ≠ 0 && l.atom ≤ atomMax

/-- The atom count of a problem line with exactly the words `p`, `cnf`, an atom count and a clause
count. The clause count is only checked to be a number of 64 bits. -/
def problem? : List (List Char) → Option Nat
  | [['p'], ['c', 'n', 'f'], atoms, clauses] =>
    match unsigned? 4294967295 atoms, unsigned? 18446744073709551615 clauses with
    | some n, some _ => if n ≤ atomMax then some n else none
    | _, _ => none
  | _ => none

/-- The line of a text. -/
def Line.ofChars (cs : List Char) : Line :=
  match cs.dropWhile isBlank with
  | 'c' :: _ => .comment
  | '%' :: _ => .stop
  | 'p' :: _ => .problem (problem? (words cs))
  | _ =>
    if (words cs).getLast? = some ['0'] then .clause ((words cs).dropLast.mapM literal?)
    else .other

end Clausal.Dimacs
