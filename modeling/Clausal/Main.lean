import Clausal.CommandLine

/-!
# The program

Reads the file, keeps the time and prints; all else is done by `Clausal.CommandLine`.
-/

namespace Clausal.CommandLine

/-- Goes through passes until one answers, with the clock of the machine read before each. -/
partial def runTimed (began : Nat) (s : Search) : IO Report := do
  let now ← IO.monoNanosNow
  match s.pass fun _ => ⟨now - began⟩ with
  | (some report, _) => return report
  | (none, s) => runTimed began s

/-- Solves with time kept by the clock of the machine. -/
def solveTimed (s : Search) : IO Report := do
  match s.restart with
  | (some report, _) => return report
  | (none, s) => runTimed (← IO.monoNanosNow) s

/-- The content of a file, or the reason why it cannot be opened. -/
def readContent (file : String) : IO (Except String Dimacs.Source) := do
  let opened ← (IO.FS.Handle.mk file .read).toBaseIO
  match opened with
  | .error (.noFileOrDirectory ..) => return .error "No such file or directory (os error 2)"
  | .error e => return .error (toString e)
  | .ok handle =>
    match ← handle.readBinToEnd.toBaseIO with
    | .error _ => return .ok ⟨[], true⟩
    | .ok bytes => return .ok ⟨bytes.toList, false⟩

/-- Prints the outcome of a run. -/
def report (outcome : Outcome) : IO UInt32 := do
  (← IO.getStdout).putStr outcome.stdout
  return outcome.code.toUInt32

end Clausal.CommandLine

open Clausal CommandLine in
def main (arguments : List String) : IO UInt32 := do
  match Options.parse arguments with
  | .error e =>
    (← IO.getStderr).putStrLn ("error: " ++ e.message)
    return 2
  | .ok (file, options) =>
    match start file options (← readContent file) with
    | .finished outcome => report outcome
    | .ready lines config cnf =>
      match (Search.oracle fun _ => .zero).register cnf (Search.new config 0) with
      | (.error e, _) => report (finish options lines (cnf.readReport (.error e)))
      | (.ok (), s) =>
        let answer ← solveTimed s
        report (finish options lines (cnf.readReport (.ok answer)))
