import Clausal.Cnf
import Clausal.Model
import Clausal.Report

/-!
# Oracles

An oracle is anything that takes clauses one by one and then reports on them. What it keeps in
between is its own affair: it is a state of any type, and nothing is assumed about the answers.

`Oracle.findModel` puts an instance to an oracle and reads the report as a model, as the absence of
one, or as an error. A clause that the oracle calls contradictory means that there is no model; a
report that time is up never does.
-/

namespace Clausal

structure Oracle (σ : Type) where
  /-- Begins afresh, for clauses over a number of atoms. -/
  start : Nat → σ → σ
  /-- Takes a clause. -/
  addClause : Clause → σ → Except OracleError Unit × σ
  /-- Reports on the clauses taken since the last start. -/
  solve : σ → Except OracleError Report × σ

/-- The model of an instance that a report tells of, if it does. -/
def Cnf.readReport (cnf : Cnf) : Except OracleError Report → Except Error (Option Model)
  | .ok (.satisfiable literals) => .ok (some (Model.ofLiterals cnf.atomCount literals))
  | .ok .unsatisfiable => .ok none
  | .ok .timeUp => .error .timeout
  | .error .contradiction => .ok none
  | .error e => .error (.oracle e)

namespace Oracle

variable {σ : Type} (o : Oracle σ)

/-- Offers clauses in order, up to the first that is refused. -/
def addAll : List Clause → σ → Except OracleError Unit × σ
  | [], s => (.ok (), s)
  | c :: cs, s =>
    match o.addClause c s with
    | (.error e, s) => (.error e, s)
    | (.ok (), s) => addAll cs s

/-- Begins afresh with the clauses of an instance. -/
def register (cnf : Cnf) (s : σ) : Except OracleError Unit × σ :=
  o.addAll cnf.clauses (o.start cnf.atomCount s)

/-- Asks for a model of an instance. -/
def findModel (cnf : Cnf) (s : σ) : Except Error (Option Model) × σ :=
  match o.register cnf s with
  | (.error e, s) => (cnf.readReport (.error e), s)
  | (.ok (), s) =>
    let (report, s) := o.solve s
    (cnf.readReport report, s)

end Oracle

end Clausal
