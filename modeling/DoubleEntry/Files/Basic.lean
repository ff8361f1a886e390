import DoubleEntry.Files.Path

/-!
# Files

What a ledger needs from a file system: to find the canonical path of a file, and to read its text.
`Files` holds both as a value, so loading a ledger is a function.

* `FileError`: why a file cannot be found or read.
* `Files.read`: the text under a canonical path.
* `Files.exist`: whether a path leads to anything.
-/

namespace DoubleEntry

/-- Why a file cannot be found or read. -/
inductive FileError where
  /-- There is nothing at the path. -/
  | notFound
  /-- The path goes on after a file that is no directory. -/
  | notDirectory
  /-- A directory has no text. -/
  | isDirectory
  /-- The symbolic links on the path do not come to an end. -/
  | tooManyLinks
  /-- No file name contains the character of code 0. -/
  | nulInPath
  /-- The file does not hold UTF-8. -/
  | notText
  /-- Another failure that the system reports. -/
  | other (code : Nat) (description : String)
deriving DecidableEq, Repr

/-- The words for a file error; those of the system come with its error code. -/
def FileError.message : FileError → String
  | notFound => "No such file or directory (os error 2)"
  | notDirectory => "Not a directory (os error 20)"
  | isDirectory => "Is a directory (os error 21)"
  | tooManyLinks => "Too many levels of symbolic links (os error 40)"
  | nulInPath => "file name contained an unexpected NUL byte"
  | notText => "stream did not contain valid UTF-8"
  | other code description => s!"{description} (os error {code})"

/-- The files that can be read. -/
structure Files where
  /-- The canonical path that a path leads to. -/
  resolve : String → Except FileError String
  /-- The texts of the readable files, under their canonical paths. -/
  texts : List (String × String)
  /-- Why a canonical path cannot be read, if it has no text. -/
  failure : String → FileError

namespace Files

/-- The text of the file with a canonical path. -/
def read (files : Files) (path : String) : Except FileError String :=
  match files.texts.lookup path with
  | some text => .ok text
  | none => .error (files.failure path)

/-- Whether a path leads to anything. -/
def exist (files : Files) (path : String) : Bool :=
  match files.resolve path with
  | .ok _ => true
  | .error _ => false

/-- The number of readable files apart from some. -/
def countOutside (files : Files) (paths : List String) : Nat :=
  (files.texts.filter (·.1 ∉ paths)).length

theorem countOutside_append_lt (files : Files) {paths : List String} {path text : String}
    (hnew : path ∉ paths) (hread : files.texts.lookup path = some text) :
    files.countOutside (paths ++ [path]) < files.countOutside paths := by
  have hfilter : files.texts.filter (·.1 ∉ paths ++ [path]) =
      (files.texts.filter (·.1 ∉ paths)).filter (·.1 ≠ path) := by
    rw [List.filter_filter]
    congr 1
    funext e
    by_cases hin : e.1 ∈ paths <;> by_cases heq : e.1 = path <;> simp [hin, heq]
  obtain ⟨before, after, htexts, -⟩ := List.lookup_eq_some_iff.1 hread
  have hmem : (path, text) ∈ files.texts.filter (·.1 ∉ paths) := by simp [htexts, hnew]
  unfold countOutside
  rw [hfilter, List.length_filter_lt_length_iff_exists]
  exact ⟨(path, text), hmem, by simp⟩

end Files

end DoubleEntry
