import Std.Data.TreeMap
import DoubleEntry.Transaction

/-!
# Automatic amounts

The amounts that were filled in, under the file and line of their postings.

* `AutomaticAmounts.addPosting`: notes the amount of a posting, if it was filled in.
* `AutomaticAmounts.get?`: the amounts of a line, in the order in which they were noted.
-/

namespace DoubleEntry

/-- Texts of amounts by file and line. No file and no line is without amounts. -/
abbrev AutomaticAmounts := Std.TreeMap String (Std.TreeMap Nat (List String))

namespace AutomaticAmounts

/-- Adds an amount at a line. -/
def add (index : AutomaticAmounts) (file : String) (line : Nat) (a : Amount) : AutomaticAmounts :=
  let lines := index.getD file {}
  index.insert file (lines.insert line (lines.getD line [] ++ [a.text]))

/-- Notes the amount of a posting if it was filled in. A posting without a known place counts under
line 0 of the file without a name. -/
def addPosting (index : AutomaticAmounts) (p : Posting) : AutomaticAmounts :=
  match p.isAutomatic, p.amount? with
  | true, some units =>
    let place := p.metadata.location?.getD ⟨"", 0⟩
    index.add place.file place.line units
  | _, _ => index

/-- The amounts noted for a line. -/
def get? (index : AutomaticAmounts) (file : String) (line : Nat) : Option (List String) :=
  index[file]?.bind (·[line]?)

end AutomaticAmounts

end DoubleEntry
