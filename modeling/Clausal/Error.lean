/-!
# Errors

What can go wrong, as causes. Each family of causes belongs to one part of the library, and
`Error` is their sum. The wording of every cause is given once, by the `message` functions.
-/

namespace Clausal

/-- Faults of a formula or of a clause as it is built. -/
inductive FormulaError where
  /-- A conjunction or disjunction without operands. -/
  | emptyConnective
  /-- The index 0, which names no atom. -/
  | nullAtom
  /-- A literal whose atom is above the greatest atom. -/
  | literalRange (literal : Int)
deriving DecidableEq, Repr

/-- Faults in the use of a supply of atoms. -/
inductive SupplyError where
  /-- An atom above every atom handed out in the current generation. -/
  | unknownAtom (index : Nat)
  /-- The greatest atom has already been handed out. -/
  | atomsExhausted
deriving DecidableEq, Repr

/-- Refusals of an oracle. -/
inductive OracleError where
  /-- The clauses offered so far are plainly inconsistent. -/
  | contradiction
  /-- A clause held the integer 0. -/
  | zeroLiteral
deriving DecidableEq, Repr

/-- Faults of a DIMACS text, each with the number of its line, counted from 1. -/
inductive ParseError where
  /-- A malformed problem line, or a second one. -/
  | problemLine (line : Nat)
  /-- A clause line with something other than a literal before its closing zero. -/
  | clauseLine (line : Nat)
  /-- A literal whose atom exceeds the declared atom count. -/
  | atomBound (line : Nat)
  /-- A line that could not be read, or is not text. -/
  | unreadable (line : Nat)
deriving DecidableEq, Repr

/-- Every failure of the library. -/
inductive Error where
  | formula (cause : FormulaError)
  | supply (cause : SupplyError)
  | oracle (cause : OracleError)
  | parse (cause : ParseError)
  /-- The oracle gave up at its time limit. -/
  | timeout
deriving DecidableEq, Repr

/-! ## Wording -/

def FormulaError.message : FormulaError → String
  | .emptyConnective => "a conjunction or disjunction requires an operand"
  | .nullAtom => "atom indices begin at 1"
  | .literalRange literal => s!"literal {literal} is out of range"

def SupplyError.message : SupplyError → String
  | .unknownAtom index => s!"atom {index} is unknown to the namespace"
  | .atomsExhausted => "no fresh atoms remain"

def OracleError.message : OracleError → String
  | .contradiction => "contradictory clause"
  | .zeroLiteral => "zero is not a literal"

def ParseError.message : ParseError → String
  | .problemLine line => s!"line {line}: invalid problem line"
  | .clauseLine line => s!"line {line}: invalid clause"
  | .atomBound line => s!"line {line}: atom exceeds the declared atom count"
  | .unreadable line => s!"line {line}: failed to read"

def Error.message : Error → String
  | .formula cause => "invalid formula: " ++ cause.message
  | .supply cause => "namespace misuse: " ++ cause.message
  | .oracle cause => "oracle: " ++ cause.message
  | .parse cause => "malformed DIMACS: " ++ cause.message
  | .timeout => "the oracle timed out"

end Clausal
