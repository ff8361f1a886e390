import DoubleEntry.Files.Basic

/-!
# Snapshots

What was found out about a file system by asking for single paths. A snapshot knows nothing of other
paths, so it stands for the file system only where all paths in question were asked for.

* `Snapshot.files`: the files as far as they are known.
-/

namespace DoubleEntry

/-- Answers of a file system. -/
structure Snapshot where
  /-- Paths with what they lead to. -/
  resolved : List (String × Except FileError String) := []
  /-- Canonical paths with what was read there. -/
  contents : List (String × Except FileError String) := []

namespace Snapshot

/-- What a path leads to; nothing if it was not asked for. -/
def resolve (s : Snapshot) (path : String) : Except FileError String :=
  (s.resolved.lookup path).getD (.error .notFound)

/-- Why a canonical path cannot be read. -/
def failure (s : Snapshot) (path : String) : FileError :=
  match s.contents.lookup path with
  | some (.error e) => e
  | _ => .notFound

/-- The files as far as they are known. -/
def files (s : Snapshot) : Files where
  resolve := s.resolve
  texts := s.contents.filterMap fun (path, content) =>
    match content with
    | .ok text => some (path, text)
    | .error _ => none
  failure := s.failure

end Snapshot

end DoubleEntry
