/-!
# Paths

Paths as text, with components between slashes. Nothing here looks at a file system, so `.` and `..`
are components like others.

* `Path.join`: a path seen from a directory.
* `Path.parent`: the directory of a file.
* `Path.components`: two spellings of a path have the same components.
-/

namespace DoubleEntry

namespace Path

/-- Whether the path starts at the root. -/
def isAbsolute (path : String) : Bool := path.toList.head? == some '/'

/-- The path as seen from a directory. An absolute path stays as it is; an empty one gives the
directory with a slash after it. -/
def join (directory path : String) : String :=
  if isAbsolute path then path
  else
    match directory.toList.getLast? with
    | none => path
    | some '/' => directory ++ path
    | some _ => directory ++ "/" ++ path

/-- The pieces between slashes, as they stand. -/
def pieces (path : String) : List String := (path.toList.splitOn '/').map String.ofList

/-- The absolute path with the given components. -/
def ofSteps (steps : List String) : String := "/" ++ "/".intercalate steps

/-- The directory that an absolute path of a file lies in. -/
def parent (path : String) : String := ofSteps (pieces path).dropLast.tail

/-- The components, the root among them. Slashes in a row count as one, and so does `/./`; only at
the start of a relative path does a `.` count. -/
def components (path : String) : List String :=
  let rest := (pieces path).filter fun piece => piece != "" && piece != "."
  if isAbsolute path then "/" :: rest
  else if (pieces path).head? = some "." then "." :: rest
  else rest

end Path

end DoubleEntry
