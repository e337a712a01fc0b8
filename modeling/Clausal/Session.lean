import Clausal.Dimacs.Render
import Clausal.Encoding
import Clausal.Formula.Derived
import Clausal.Search.Oracle

/-!
# Sessions

A session is a supply of atoms with an oracle. Formulas over atoms of the supply are encoded,
solved and enumerated in it. Every operation returns the session moved on, also when it fails: the
atoms that a failed encoding took stay taken.
-/

namespace Clausal

structure Session (σ : Type) where
  supply : Supply
  oracle : Oracle σ
  /-- The state of the oracle. -/
  state : σ

/-- The clause that is false in a model, and in every other model that gives the same values to the
listed atoms. -/
def Model.blockingClause (m : Model) (atoms : List Atom) : Clause :=
  atoms.map fun a => ⟨a.index, !m.valueOf a⟩

/-- Finds up to `limit` models of an instance that differ on the listed atoms, and restricts them to
these. Each model found is blocked by a clause for the rounds that follow; if that clause is not
new, there is no further round. -/
def Oracle.findModels {σ : Type} (o : Oracle σ) (atoms : List Atom) :
    (limit : Nat) → Cnf → σ → Except Error (List Model) × σ
  | 0, _, s => (.ok [], s)
  | limit + 1, cnf, s =>
    match o.findModel cnf s with
    | (.error e, s) => (.error e, s)
    | (.ok none, s) => (.ok [], s)
    | (.ok (some m), s) =>
      match cnf.addClause (m.blockingClause atoms) with
      | .error e => (.error (.formula e), s)
      | .ok (false, _) => (.ok [m.restrict atoms], s)
      | .ok (true, cnf) =>
        match findModels o atoms limit cnf s with
        | (.error e, s) => (.error e, s)
        | (.ok ms, s) => (.ok (m.restrict atoms :: ms), s)

namespace Session

variable {σ : Type}

/-- A session with the built-in oracle. -/
def withConfig (config : Config) (clock : Search.Clock) : Session Search :=
  ⟨Supply.empty, Search.oracle clock, Search.new config 0⟩

/-- Begins a new generation of atoms. -/
def reset (s : Session σ) : Session σ := { s with supply := s.supply.reset }

def encode (s : Session σ) (f : Formula) : Except Error Encoding × Session σ :=
  let (result, supply) := s.supply.encode f
  (result, { s with supply })

/-- Asks the oracle for a model of an instance. -/
def findModel (s : Session σ) (cnf : Cnf) : Except Error (Option Model) × Session σ :=
  let (result, state) := s.oracle.findModel cnf s.state
  (result, { s with state })

/-- Encodes a formula and asks the oracle for a model of the encoding. -/
def encodeAndSolve (s : Session σ) (f : Formula) : Except Error (Option Model) × Session σ :=
  match s.encode f with
  | (.error e, s) => (.error e, s)
  | (.ok encoding, s) => s.findModel encoding.cnf

/-- Whether a formula has a model. -/
def isSatisfiable (s : Session σ) (f : Formula) : Except Error Bool × Session σ :=
  let (result, s) := s.encodeAndSolve f
  (result.map Option.isSome, s)

/-- The encoding of a formula in DIMACS form. -/
def dimacs (s : Session σ) (f : Formula) : Except Error String × Session σ :=
  let (result, s) := s.encode f
  (result.map fun encoding => Dimacs.render encoding.cnf, s)

/-- The encoding of a formula, as a formula over the atoms of the session. -/
def cnfFormula (s : Session σ) (f : Formula) : Except Error Formula × Session σ :=
  match s.encode f with
  | (.error e, s) => (.error e, s)
  | (.ok encoding, s) => (Formula.ofClauses s.supply.atom encoding.cnf.clauses, s)

/-- Up to `limit` models of a formula that differ on the listed atoms, restricted to these. -/
def allModels (s : Session σ) (f : Formula) (atoms : List Atom) (limit : Nat) :
    Except Error (List Model) × Session σ :=
  match s.encode f with
  | (.error e, s) => (.error e, s)
  | (.ok encoding, s) =>
    let (result, state) := s.oracle.findModels atoms limit encoding.cnf s.state
    (result, { s with state })

end Session

end Clausal
