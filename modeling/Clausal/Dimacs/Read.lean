import Clausal.Dimacs.Line

/-!
# Reading an instance in DIMACS form

The lines are read in order, and the first fault ends the reading. Bytes are cut into lines before
they are decoded, so a line that is not text is met only when its turn comes. A source of bytes may
fail instead of ending; then the line it fails on is unreadable, also if it has no bytes yet.

A problem line is optional and may come after clauses, whose atoms must be within the count that it
declares.
-/

namespace Clausal.Dimacs

open Clausal.Text

/-- The instance read so far, and the atom count declared so far. -/
structure Reader where
  cnf : Cnf
  declared? : Option Nat

namespace Reader

def start : Reader := ⟨Cnf.empty, none⟩

/-- Takes in a line, given its number. -/
def take (r : Reader) (number : Nat) : Line → Except ParseError Reader
  | .comment | .stop | .other => .ok r
  | .problem atomCount? =>
    match r.declared?, atomCount? with
    | none, some n =>
      if r.cnf.atomCount > n then .error (.atomBound number)
      else .ok ⟨r.cnf.declareAtomCount n, some n⟩
    | _, _ => .error (.problemLine number)
  | .clause none => .error (.clauseLine number)
  | .clause (some c) =>
    if r.declared?.any fun n => c.atoms.any (n < ·) then .error (.atomBound number)
    else
      match r.cnf.addClause c with
      | .ok (_, cnf) => .ok { r with cnf }
      | .error _ => .error (.clauseLine number)

/-- Takes in lines up to the end, or to a line that ends the instance. A line that cannot be read
is `none`. -/
def takeAll (r : Reader) (number : Nat) : List (Option (List Char)) → Except ParseError Cnf
  | [] => .ok r.cnf
  | none :: _ => .error (.unreadable number)
  | some cs :: rest =>
    match Line.ofChars cs with
    | .stop => .ok r.cnf
    | line =>
      match r.take number line with
      | .error e => .error e
      | .ok r => takeAll r (number + 1) rest

end Reader

/-- Bytes from a source that ends, or fails, after the last of them. -/
structure Source where
  bytes : List UInt8
  fails : Bool

/-- The text of a line of bytes, if it is UTF-8. -/
def decodeLine (bytes : List UInt8) : Option (List Char) :=
  (String.fromUTF8? ⟨bytes.toArray⟩).map String.toList

def isLineEnd (byte : UInt8) : Bool := byte == 10

/-- The lines of a source. If the source fails, it does so on the line after the last line end. -/
def Source.lines (s : Source) : List (Option (List Char)) :=
  let lines := Text.lines isLineEnd s.bytes
  if s.fails then (lines.filter fun line => line.any isLineEnd).map decodeLine ++ [none]
  else lines.map decodeLine

/-- Reads an instance from a source of bytes. -/
def read (s : Source) : Except Error Cnf :=
  (Reader.start.takeAll 1 s.lines).mapError .parse

/-- Reads an instance from a text. -/
def parseChars (cs : List Char) : Except Error Cnf :=
  (Reader.start.takeAll 1 ((Text.lines (· == '\n') cs).map some)).mapError .parse

def parse (text : String) : Except Error Cnf := parseChars text.toList

end Clausal.Dimacs
