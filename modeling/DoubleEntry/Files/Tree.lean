import DoubleEntry.Files.Basic

/-!
# File trees

A file system held in memory. Absolute paths are lists of names below the root, and a path is
resolved name by name, as POSIX systems do: each step needs a directory, also the steps `.` and `..`
and the empty one after a last slash, and a symbolic link is replaced by its target.

* `FileTree.walk`: the place that a path leads to.
* `FileTree.files`: what a program that runs in some directory sees of the tree.
-/

namespace DoubleEntry

namespace FileTree

/-- What stands at a place of a file tree. -/
inductive Node where
  /-- A file with its text; `none` if its bytes are no text. -/
  | file (text : Option String)
  | directory
  /-- A symbolic link to a path. -/
  | link (target : String)
deriving DecidableEq, Repr

end FileTree

/-- Files, directories and links by their absolute places. -/
structure FileTree where
  /-- The places with what stands there. The directories above a place need not be listed. -/
  entries : List (List String × FileTree.Node) := []
deriving Repr

namespace FileTree

/-- What stands at a place, if anything. -/
def node? (tree : FileTree) (place : List String) : Option Node :=
  match tree.entries.lookup place with
  | some node => some node
  | none =>
    if place = [] ∨ tree.entries.any (fun e => place.isPrefixOf e.1) then some .directory else none

/-- How many symbolic links one path may go through. -/
def maxLinks : Nat := 40

/-- Where an absolute path starts, and where a relative one does. -/
def start (directory : List String) (path : String) : List String :=
  if Path.isAbsolute path then [] else directory

/-- Goes on from a place by steps. At most `links` symbolic links are followed. -/
def walk (tree : FileTree) (links : Nat) (place : List String) :
    List String → Except FileError (List String)
  | [] => .ok place
  | step :: rest =>
    match tree.node? place with
    | some .directory =>
      if step = "" ∨ step = "." then walk tree links place rest
      else if step = ".." then walk tree links place.dropLast rest
      else
        match tree.node? (place ++ [step]) with
        | none => .error .notFound
        | some (.link target) =>
          match links with
          | 0 => .error .tooManyLinks
          | links + 1 => walk tree links (start place target) (Path.pieces target ++ rest)
        | some _ => walk tree links (place ++ [step]) rest
    | _ => .error .notDirectory
termination_by steps => (links, steps)

/-- The place that a path leads to, for a program that runs in a directory. -/
def resolve (tree : FileTree) (directory : List String) (path : String) :
    Except FileError (List String) :=
  if path.toList.contains '\x00' then .error .nulInPath
  else if path = "" then .error .notFound
  else tree.walk maxLinks (start directory path) (Path.pieces path)

/-- The places that hold text, by their canonical paths. -/
def texts (tree : FileTree) : List (String × String) :=
  tree.entries.filterMap fun (place, node) =>
    match node with
    | .file (some text) => some (Path.ofSteps place, text)
    | _ => none

/-- Why nothing can be read at a canonical path that holds no text. -/
def failure (tree : FileTree) (path : String) : FileError :=
  match tree.node? ((Path.pieces path).filter (· ≠ "")) with
  | some (.file _) => .notText
  | some _ => .isDirectory
  | none => .notFound

/-- The files that a program sees which runs in a directory. -/
def files (tree : FileTree) (directory : List String) : Files where
  resolve path := (tree.resolve directory path).map Path.ofSteps
  texts := tree.texts
  failure := tree.failure

end FileTree

end DoubleEntry
