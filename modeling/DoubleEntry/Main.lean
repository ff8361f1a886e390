import DoubleEntry.CommandLine
import DoubleEntry.Files.Snapshot

/-!
# The command

Asks the file system for everything that the ledger of the given root file mentions, runs the
command on what was found, and prints its outcome.
-/

namespace DoubleEntry.CommandLine

/-- The file error for an error code of the system, which some operations give with a minus sign. -/
def fileErrorOfCode (code : UInt32) (description : String) : FileError :=
  match min code.toNat (-code).toNat with
  | 2 => .notFound
  | 20 => .notDirectory
  | 21 => .isDirectory
  | 40 => .tooManyLinks
  | n => .other n description

/-- The file error for a failed operation. -/
def fileError : IO.Error → FileError
  | .noFileOrDirectory .. => .notFound
  | .inappropriateType _ code details | .invalidArgument _ code details
  | .permissionDenied _ code details | .resourceExhausted _ code details
  | .noSuchThing _ code details | .alreadyExists _ code details
  | .otherError code details | .resourceBusy code details | .hardwareFault code details
  | .illegalOperation code details => fileErrorOfCode code details
  | e => .other 0 e.toString

/-- Reads the text of a file. -/
def readText (path : String) : IO (Except FileError String) := do
  match ← (IO.FS.readBinFile path).toBaseIO with
  | .ok bytes =>
    match String.fromUTF8? bytes with
    | some text => return .ok text
    | none => return .error .notText
  | .error e => return .error (fileError e)

/-- Finds the canonical path that a path leads to. If there is none, an attempt to read tells why.
-/
def findPath (path : String) : IO (Except FileError String) := do
  match ← (IO.FS.realPath path).toBaseIO with
  | .ok found => return .ok found.toString
  | .error e =>
    match ← readText path with
    | .error reason => return .error reason
    | .ok _ => return .error (fileError e)

/-- A path to ask for. -/
structure Question where
  path : String
  /-- Whether to read the file there too. -/
  isRead : Bool

/-- What to ask because of a text: for the files it includes, and whether its documents exist, as
seen from the directory of the root file. -/
def questions (root path text : String) : List Question :=
  match Journal.ofText text with
  | .error _ => []
  | .exact journal | .rounded journal =>
    let document? (d : Placed Directive) : Option Question :=
      match d.value.body with
      | .document _ target => some ⟨Path.join (Path.parent root) target, false⟩
      | _ => none
    let included (i : IncludeLine) : Question := ⟨Path.join (Path.parent path) i.path, true⟩
    journal.inclusions.map included ++ journal.directives.filterMap document?

/-- Asks for a path. -/
def ask (s : Snapshot) (path : String) : IO (Snapshot × Except FileError String) := do
  match s.resolved.lookup path with
  | some found => return (s, found)
  | none =>
    let found ← findPath path
    return ({ s with resolved := (path, found) :: s.resolved }, found)

/-- Asks questions, and all further ones that the files read give rise to. The first file read is
the root file. -/
partial def explore (root : Option String) (s : Snapshot) : List Question → IO Snapshot
  | [] => return s
  | q :: rest => do
    let (s, found) ← ask s q.path
    match found with
    | .error _ => explore root s rest
    | .ok path =>
      if !q.isRead || (s.contents.lookup path).isSome then explore root s rest
      else
        let content ← readText path
        let s := { s with contents := (path, content) :: s.contents }
        let root := root.getD path
        match content with
        | .error _ => explore root s rest
        | .ok text => explore root s (questions root path text ++ rest)

end DoubleEntry.CommandLine

open DoubleEntry CommandLine in
/-- The program. Its exit code is 0 if there is a report, and 2 if there is none. -/
def main (arguments : List String) : IO UInt32 := do
  let snapshot ←
    match Request.ofArguments arguments with
    | .report a => explore none {} [⟨a.file, true⟩]
    | _ => pure {}
  match run snapshot.files arguments with
  | .error fault =>
    IO.eprintln s!"error: {fault.message}"
    return 2
  | .exact outcome | .rounded outcome =>
    outcome.output.forM IO.println
    if outcome.exitCode ≠ 0 then IO.eprintln (outcome.fatal.getD usageLine)
    return outcome.exitCode.toUInt32
