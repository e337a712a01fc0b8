import Clausal.Binary64.Read

/-!
# Command line options

A command line names one file and sets each option at most once. An option with a value takes it
after an equals sign or from the next argument, which then must not look like an option. After `--`
every argument is a file.
-/

namespace Clausal.CommandLine

structure Options where
  file? : Option String
  model : Bool
  dimacs : Bool
  noPhaseSaving : Bool
  /-- The time limit in seconds. -/
  timeLimit? : Option Nat
  seed? : Option Nat
  polarityBias? : Option Binary64
  decisionBias? : Option Binary64

/-- Why a command line is refused. -/
inductive UsageError where
  | missingFile
  | extraFile (argument : String)
  | emptyFile
  | unknownOption (argument : String)
  | repeated (name : String)
  | missingValue (name : String)
  | unexpectedValue (name : String)
  | badValue (name : String)
deriving DecidableEq

def UsageError.message : UsageError → String
  | .missingFile => "a file is required"
  | .extraFile argument => s!"unexpected argument {argument}"
  | .emptyFile => "the name of the file is empty"
  | .unknownOption argument => s!"unknown option {argument}"
  | .repeated name => s!"option --{name} is given more than once"
  | .missingValue name => s!"option --{name} requires a value"
  | .unexpectedValue name => s!"option --{name} takes no value"
  | .badValue name => s!"the value of option --{name} is invalid"

namespace Options

/-- Nothing given. -/
def blank : Options where
  file? := none
  model := false
  dimacs := false
  noPhaseSaving := false
  timeLimit? := none
  seed? := none
  polarityBias? := none
  decisionBias? := none

/-- A whole number of 64 bits. -/
def whole? (value : List Char) : Option Nat := Text.unsigned? 18446744073709551615 value

/-- Takes in the name of a file. -/
def takeFile (o : Options) (argument : String) : Except UsageError Options :=
  if o.file?.isSome then .error (.extraFile argument)
  else if argument.isEmpty then .error .emptyFile
  else .ok { o with file? := argument }

/-- Takes in an option without a value; `none` if there is no such option. -/
def takeFlag? (o : Options) (name : String) : Option (Except UsageError Options) :=
  let set (given : Bool) (o : Options) : Option (Except UsageError Options) :=
    some (if given then .error (.repeated name) else .ok o)
  match name with
  | "model" => set o.model { o with model := true }
  | "dimacs" => set o.dimacs { o with dimacs := true }
  | "no-phase-saving" => set o.noPhaseSaving { o with noPhaseSaving := true }
  | _ => none

/-- Whether there is an option of this name with a value. -/
def takesValue (name : String) : Bool :=
  ["time-limit", "seed", "polarity-lean", "random-decision-bias"].contains name

/-- Takes in an option with its value. -/
def takeValue (o : Options) (name : String) (value : List Char) : Except UsageError Options :=
  let set {α : Type} (given : Option α) (read? : List Char → Option α)
      (update : α → Options) : Except UsageError Options :=
    if given.isSome then .error (.repeated name)
    else
      match read? value with
      | some x => .ok (update x)
      | none => .error (.badValue name)
  match name with
  | "time-limit" => set o.timeLimit? whole? fun n => { o with timeLimit? := n }
  | "seed" => set o.seed? whole? fun n => { o with seed? := n }
  | "polarity-lean" => set o.polarityBias? Binary64.ofChars? fun x => { o with polarityBias? := x }
  | "random-decision-bias" =>
    set o.decisionBias? Binary64.ofChars? fun x => { o with decisionBias? := x }
  | _ => .error (.unknownOption name)

/-- Whether an argument looks like an option: a dash with something after it. -/
def looksLikeOption (argument : List Char) : Bool :=
  argument.head? == some '-' && argument.length != 1

/-- Takes in arguments that name files. -/
def takeFiles (o : Options) : List String → Except UsageError Options
  | [] => .ok o
  | argument :: rest =>
    match o.takeFile argument with
    | .error e => .error e
    | .ok o => takeFiles o rest

/-- Takes in arguments from left to right. -/
def takeAll (o : Options) : List String → Except UsageError Options
  | [] => .ok o
  | "--" :: rest => o.takeFiles rest
  | argument :: rest =>
    match argument.toList with
    | '-' :: '-' :: text =>
      let name := String.ofList (text.takeWhile (· != '='))
      let inline := text.dropWhile (· != '=')
      match o.takeFlag? name with
      | some result =>
        if inline.isEmpty then
          match result with
          | .error e => .error e
          | .ok o => takeAll o rest
        else .error (.unexpectedValue name)
      | none =>
        if !takesValue name then .error (.unknownOption argument)
        else if !inline.isEmpty then
          match o.takeValue name inline.tail with
          | .error e => .error e
          | .ok o => takeAll o rest
        else
          match rest with
          | [] => .error (.missingValue name)
          | value :: rest =>
            if looksLikeOption value.toList then .error (.missingValue name)
            else
              match o.takeValue name value.toList with
              | .error e => .error e
              | .ok o => takeAll o rest
    | text =>
      if looksLikeOption text then .error (.unknownOption argument)
      else
        match o.takeFile argument with
        | .error e => .error e
        | .ok o => takeAll o rest

/-- The file and the options of a command line. -/
def parse (arguments : List String) : Except UsageError (String × Options) :=
  match blank.takeAll arguments with
  | .error e => .error e
  | .ok o =>
    match o.file? with
    | some file => .ok (file, o)
    | none => .error .missingFile

end Options

end Clausal.CommandLine
