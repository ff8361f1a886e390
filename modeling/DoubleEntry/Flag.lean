/-!
# Flags

The one-character flags of transactions and postings, with the names they are reported under.
-/

namespace DoubleEntry

namespace Flag

/-- A transaction in order. -/
def okay : Char := '*'

/-- A transaction or posting that needs review. -/
def warning : Char := '!'

/-- A transaction that fills a gap left by a pad. -/
def padding : Char := 'P'

/-- Every flag with its name. -/
def all : List (String × Char) :=
  [("OKAY", okay), ("WARNING", warning), ("PADDING", padding), ("SUMMARIZE", 'S'),
    ("TRANSFER", 'T'), ("CONVERSIONS", 'C'), ("UNREALIZED", 'U'), ("RETURNS", 'R'),
    ("MERGING", 'M')]

/-- The name of a flag, or the character itself if it has none. -/
def name (flag : Char) : String :=
  match all.find? (·.2 = flag) with
  | some (name, _) => name
  | none => flag.toString

end Flag

end DoubleEntry
