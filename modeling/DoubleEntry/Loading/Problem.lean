import DoubleEntry.Files.Basic
import DoubleEntry.Journal.SyntaxError
import DoubleEntry.Metadata
import DoubleEntry.Settings

/-!
# Loading problems

What can go wrong when a ledger is read from files. Only a root file that cannot be read is fatal;
all else is noted with the line it is about.

* `LoadFailure`: why a file is not loaded.
* `LoadProblem`: something wrong with a line of a file that is loaded.
-/

namespace DoubleEntry

/-- Why a file is not loaded. -/
inductive LoadFailure where
  /-- The file cannot be found or read. -/
  | unreadable (path : String) (cause : FileError)
  /-- The file includes itself, by way of the files in between. -/
  | cycle (chain : List String)
deriving DecidableEq, Repr

/-- The words for the failure. -/
def LoadFailure.message : LoadFailure → String
  | unreadable path cause => s!"failed to read file {path}: {cause.message}"
  | cycle chain => "include cycle detected: " ++ " -> ".intercalate chain

namespace LoadProblem

/-- What is wrong with a line. -/
inductive Cause where
  /-- The file to include is not loaded. -/
  | inclusion (failure : LoadFailure)
  /-- The text is no ledger text. -/
  | parsing (error : SyntaxError)
  /-- The option is not in order. -/
  | setting (warning : Settings.Warning)
deriving DecidableEq, Repr

/-- What is wrong, in words. -/
def Cause.message : Cause → String
  | inclusion failure => failure.message
  | parsing error => error.message
  | setting warning => warning.message

end LoadProblem

/-- Something wrong with a line of a file. -/
structure LoadProblem where
  cause : LoadProblem.Cause
  location : Location
deriving DecidableEq, Repr

/-- The words for the problem. -/
def LoadProblem.message (p : LoadProblem) : String := p.cause.message

end DoubleEntry
