import DoubleEntry.Report.Basic

/-!
# Command line

The command takes the root file of a ledger and prints the report on it. The flag `--payeeNarration`
asks for payees and narrations too, and `-v` or `--verbose` for news of what is being done.

* `Request.ofArguments`: what the arguments ask for.
* `Outcome`: what the command prints, and its exit code.
* `run`: the outcome for some arguments and files.
-/

namespace DoubleEntry.CommandLine

/-- What a proper command line asks for. -/
structure Arguments where
  /-- The root file. -/
  file : String
  /-- Whether to list payees and narrations. -/
  texts : Bool := false
  /-- Whether to tell what is being done. -/
  verbose : Bool := false
deriving DecidableEq, Repr

/-- What the user wants. -/
inductive Request where
  | report (arguments : Arguments)
  | help
  | version
  /-- The arguments make no sense. -/
  | misuse
deriving DecidableEq, Repr

/-- The arguments read so far. -/
structure Given where
  file : Option String := none
  texts : Bool := false
  verbose : Bool := false
deriving DecidableEq, Repr

namespace Given

/-- Takes in a file. There is one, and its name is not empty. -/
def addFile (a : Given) (file : String) : Except Request Given :=
  if a.file.isSome ∨ file = "" then .error .misuse else .ok { a with file := some file }

/-- Takes in a flag, which may come once. -/
def addTexts (a : Given) : Except Request Given :=
  if a.texts then .error .misuse else .ok { a with texts := true }

/-- Takes in a flag, which may come once. -/
def addVerbose (a : Given) : Except Request Given :=
  if a.verbose then .error .misuse else .ok { a with verbose := true }

/-- Takes in a letter after a single hyphen. -/
def addLetter (a : Given) (letter : Char) : Except Request Given :=
  match letter with
  | 'v' => a.addVerbose
  | 'h' => .error .help
  | 'V' => .error .version
  | _ => .error .misuse

/-- Takes in an argument. Help and version are given at once, whatever comes after. -/
def add (a : Given) (argument : String) : Except Request Given :=
  match argument.toList with
  | ['-'] => a.addFile argument
  | '-' :: '-' :: name =>
    match String.ofList name with
    | "payeeNarration" => a.addTexts
    | "verbose" => a.addVerbose
    | "help" => .error .help
    | "version" => .error .version
    | _ => .error .misuse
  | '-' :: letters => letters.foldlM addLetter a
  | _ => a.addFile argument

/-- The request of all arguments together, which needs a file. -/
def finish (a : Given) : Request :=
  match a.file with
  | some file => .report { file, texts := a.texts, verbose := a.verbose }
  | none => .misuse

end Given

/-- Reads arguments one by one. After `--` come files only. -/
def Request.readFrom (a : Given) : List String → Except Request Given
  | [] => .ok a
  | "--" :: files => files.foldlM Given.addFile a
  | argument :: rest => do readFrom (← a.add argument) rest

/-- What some arguments ask for. -/
def Request.ofArguments (arguments : List String) : Request :=
  match readFrom {} arguments with
  | .ok a => a.finish
  | .error request => request

/-! ## Running -/

/-- What the command prints, and its exit code. -/
structure Outcome where
  /-- The lines on standard output. -/
  output : List String := []
  /-- The line on standard error that says why there is no report. -/
  fatal : Option String := none
  exitCode : Nat := 0
deriving DecidableEq, Repr

/-- The name and version of the command. -/
def versionLine : String := "beancheck 0.4.0"

/-- How the command is used. -/
def usageLine : String := "Usage: beancheck [OPTIONS] <FILE>"

/-- The outcome for some arguments, with the files that the command sees. -/
def run (files : Files) (arguments : List String) : Checked Outcome := do
  match Request.ofArguments arguments with
  | .misuse => return { exitCode := 2 }
  | .help => return { output := [usageLine] }
  | .version => return { output := [versionLine] }
  | .report a =>
    match ← (reportOnFile files a.texts a.file).run with
    | .ok lines => return { output := lines }
    | .error failure => return { fatal := some s!"error: {failure}", exitCode := 2 }

end DoubleEntry.CommandLine
