import DoubleEntry.Directive

/-!
# Flagged items

Transactions and postings with the warning flag, for review.

* `Transaction.flagNote?`, `Posting.flagNote?`: the note about an item, if it has the flag.
-/

namespace DoubleEntry

/-- A note about an item that needs review. -/
structure FlagNote where
  /-- The file of the item, empty if it is not known. -/
  file : String
  /-- The line of the item, or 0 if it is not known. -/
  line : Nat
  message : String
  flag : Char
deriving DecidableEq, Repr

namespace FlagNote

/-- What stands for an item that has no words. -/
def placeholder : String := "¯\\_(ツ)_/¯"

/-- A note about an item of some kind, described by the first words that are not empty. -/
def about (kind : String) (flag : Char) (location : Option Location) (words : List String) :
    FlagNote :=
  let help := (words.find? (· ≠ "")).getD placeholder
  let place := location.getD ⟨"", 0⟩
  ⟨place.file, place.line, s!"{kind} has flag {Flag.name flag} ({help})", flag⟩

end FlagNote

/-- The note about a transaction at a place, if it has the warning flag. Its narration describes it,
or else its payee. -/
def Transaction.flagNote? (t : Transaction) (location : Option Location) : Option FlagNote :=
  if t.flag = Flag.warning then
    some (.about "Transaction" t.flag location (t.narration :: t.payee.toList))
  else none

/-- The note about a posting, if it has the warning flag. Its account describes it. -/
def Posting.flagNote? (p : Posting) : Option FlagNote :=
  (p.flag.filter (· = Flag.warning)).map fun flag =>
    .about "Posting" flag p.metadata.location? [p.account]

end DoubleEntry
