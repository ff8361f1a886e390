import DoubleEntry.Files.Path
import DoubleEntry.Token.Lexer

/-!
# Sources

The texts that a ledger was read from, and their lines. Offsets count bytes of the UTF-8 form; lines
and columns count from 1, columns in bytes too.

* `Source.position`: the line and column of an offset.
* `Source.line?`: the text of a line.
* `Sources`: the files of a ledger, numbered in the order in which they were read.
-/

namespace DoubleEntry

/-- The text of a file. -/
structure Source where
  path : String
  text : String
deriving DecidableEq, Repr

namespace Source

/-- The characters of a text with their offsets, from a first offset. -/
def charsFrom (offset : Nat) : List Char → List (Nat × Char)
  | [] => []
  | c :: cs => (offset, c) :: charsFrom (offset + c.utf8Size) cs

/-- The offsets where lines start, in ascending order: the start of the text, and the place after
each line feed. -/
def lineStarts (source : Source) : List Nat :=
  0 :: ((charsFrom 0 source.text.toList).filter (·.2 = '\n')).map (·.1 + 1)

/-- The line and the column of an offset, for lines that start at the offsets given. -/
def positionIn (starts : List Nat) (offset : Nat) : Nat × Nat :=
  let before := starts.filter (· ≤ offset)
  (before.length, offset - before.getLastD 0 + 1)

/-- The line and the column of an offset. What lies past the end counts on in the last line. -/
def position (source : Source) (offset : Nat) : Nat × Nat := positionIn source.lineStarts offset

/-- The line on which a range starts. -/
def lineOf (source : Source) (span : Span) : Nat := (source.position span.start).1

/-- The text without the characters `c` at its end. -/
def dropTrailing (c : Char) (cs : List Char) : List Char :=
  (cs.reverse.dropWhile (· = c)).reverse

/-- The text of a line, without the line feed and any carriage returns before it. -/
def line? (source : Source) (line : Nat) : Option String :=
  match line with
  | 0 => none
  | n + 1 =>
    (source.text.toList.splitOn '\n')[n]?.map fun cs => String.ofList (dropTrailing '\r' cs)

/-- The text of a range. -/
def slice (source : Source) (span : Span) : String :=
  let within := (charsFrom 0 source.text.toList).filter fun (offset, _) =>
    span.start ≤ offset ∧ offset < span.stop
  String.ofList (within.map (·.2))

/-- The number of bytes of the text. -/
def byteLength (source : Source) : Nat := Token.byteLength source.text.toList

end Source

/-- The files of a ledger, in the order in which they were read. -/
abbrev Sources := List Source

namespace Sources

/-- The number and text of the file with a path, in any spelling. -/
def find? (sources : Sources) (path : String) : Option (Nat × Source) :=
  (sources.zipIdx.find? fun (source, _) => Path.components source.path == Path.components path).map
    fun (source, index) => (index, source)

end Sources

end DoubleEntry
