import Clausal.Binary64.Shortest
import Clausal.CommandLine.Options
import Clausal.Dimacs.Read
import Clausal.Dimacs.Render
import Clausal.Search.Oracle
import Clausal.Text.Quoted

/-!
# The command line program

The program reads an instance from a file, asks the built-in oracle for a model and prints the
answer in the conventions of solver competitions: comment lines begin with `c`, the solution line with
`s` and the line of values with `v`, and the exit code is 10 for satisfiable and 20 for
unsatisfiable instances.

A run falls into two parts. `start` turns the options and the content of the file into an instance
and a configuration, and `finish` turns an answer into the rest of the output.
-/

namespace Clausal.CommandLine

/-- A line of output, without its line end. -/
abbrev OutputLine := List Char

/-- What a run prints and how it ends. -/
structure Outcome where
  lines : List OutputLine
  code : Nat
deriving DecidableEq

/-- The standard output of a run. -/
def Outcome.stdout (o : Outcome) : String := String.ofList (o.lines.flatMap (· ++ ['\n']))

def comment (text : String) : OutputLine := 'c' :: ' ' :: text.toList

/-! ## Configuration -/

/-- Sets a probability, if one is given. The line says so, or says what is required. -/
def setProbability (setting : Setting Binary64) :
    Option Binary64 → Except OutputLine (Setting Binary64 × List OutputLine)
  | none => .ok (setting, [])
  | some x =>
    match setting.set x with
    | .ok setting =>
      .ok (setting, [comment setting.name ++ " set to: ".toList ++ x.chars])
    | .error _ =>
      .error (comment setting.name ++ " requires a value between ".toList ++ setting.least.chars
        ++ " and ".toList ++ setting.most.chars)

/-- The configuration that the options ask for, with a line for each setting changed; none if a
probability is out of bounds. -/
def configure (o : Options) : List OutputLine × Option Config :=
  let config := Config.default
  let timeLines := o.timeLimit?.toList.map fun n => comment s!"time_limit set to: {n}s"
  let seedLines := o.seed?.toList.map fun n => comment s!"seed set to: {n}"
  let timeLimit := { config.timeLimit with
    value := o.timeLimit?.elim config.timeLimit.value fun n => Duration.of n 0 }
  let seed := { config.seed with value := o.seed?.getD config.seed.value }
  let lines := timeLines ++ seedLines
  match setProbability config.polarityBias o.polarityBias? with
  | .error line => (lines ++ [line], none)
  | .ok (polarityBias, leanLines) =>
    let lines := lines ++ leanLines
    match setProbability config.decisionBias o.decisionBias? with
    | .error line => (lines ++ [line], none)
    | .ok (decisionBias, biasLines) =>
      let phaseLines := if o.noPhaseSaving then [comment "phase_saving disabled"] else []
      let phaseSaving := { config.phaseSaving with
        value := if o.noPhaseSaving then false else config.phaseSaving.value }
      (lines ++ biasLines ++ phaseLines,
        some { polarityBias, decisionBias, phaseSaving, timeLimit, seed })

/-! ## A run -/

/-- What comes of the options and the file. -/
inductive Start where
  /-- The run is over. -/
  | finished (outcome : Outcome)
  /-- There is an instance to solve, and these lines have been printed. -/
  | ready (lines : List OutputLine) (config : Config) (cnf : Cnf)

/-- Prepares the instance of a file. The content is the bytes of the file, or the reason why it could
not be opened. -/
def start (file : String) (o : Options) (content : Except String Dimacs.Source) : Start :=
  match configure o with
  | (lines, none) => .finished ⟨lines, 1⟩
  | (lines, some config) =>
    let lines := lines ++ [comment "Reading DIMACS file from " ++ Text.quoted file.toList]
    match content with
    | .error reason => .finished ⟨lines ++ [comment ("Failed to open CNF file: " ++ reason)], 1⟩
    | .ok source =>
      match Dimacs.read source with
      | .error e => .finished ⟨lines ++ [comment ("Parse error: " ++ e.message)], 1⟩
      | .ok cnf =>
        let parsed := comment s!"Parsed {cnf.clauseCount} clauses over {cnf.atomCount} atoms"
        let rendered := if o.dimacs then Dimacs.renderLines cnf else []
        .ready (lines ++ parsed :: rendered) config cnf

/-- The line of values: the literals of a model and a zero. -/
def valueLine (m : Model) : OutputLine := 'v' :: ' ' :: Clause.closedChars m.literals

/-- Adds the answer to the lines printed so far. -/
def finish (o : Options) (lines : List OutputLine) : Except Error (Option Model) → Outcome
  | .ok (some m) =>
    let values := if o.model then [valueLine m] else []
    ⟨lines ++ "s SATISFIABLE".toList :: values, 10⟩
  | .ok none => ⟨lines ++ ["s UNSATISFIABLE".toList], 20⟩
  | .error .timeout => ⟨lines ++ ["s UNKNOWN".toList], 0⟩
  | .error e => ⟨lines ++ [comment ("Solve error: " ++ e.message)], 1⟩

/-- A whole run, with time kept by a given clock. -/
def run (file : String) (o : Options) (content : Except String Dimacs.Source)
    (clock : Search.Clock) : Outcome :=
  match start file o content with
  | .finished outcome => outcome
  | .ready lines config cnf =>
    finish o lines ((Search.oracle clock).findModel cnf (Search.new config 0)).1

end Clausal.CommandLine
