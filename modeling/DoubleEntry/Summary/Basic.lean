import DoubleEntry.Summary.AutomaticAmounts
import DoubleEntry.Summary.Flagged
import DoubleEntry.Summary.Registry
import DoubleEntry.Summary.Vocabulary

/-!
# Summaries

What an editor wants to know of a ledger: its accounts, the names in use, what needs review, and the
amounts that were filled in.

* `Summary.addEntry`: takes in one entry.
* `Summary.ofEntries`: the summary of a ledger.
* `Summary.addReport`: attaches the balances of a balance report.
-/

namespace DoubleEntry

/-- What is collected from the entries of a ledger. -/
structure Summary where
  accounts : Registry := {}
  vocabulary : Vocabulary := {}
  /-- Notes on flagged items, in the order of the entries. -/
  flagged : List FlagNote := []
  automatic : AutomaticAmounts := {}

namespace Summary

/-- Takes in a posting. -/
def addPosting (s : Summary) (p : Posting) : Summary :=
  { s with
    flagged := s.flagged ++ p.flagNote?.toList
    automatic := s.automatic.addPosting p }

/-- Takes in a transaction, whose payee and narration are collected only if `texts` are wanted. -/
def addTransaction (s : Summary) (texts : Bool) (t : Transaction)
    (location : Option Location) : Summary :=
  let s := { s with
    flagged := s.flagged ++ (t.flagNote? location).toList
    vocabulary := s.vocabulary.addTransaction texts t }
  t.postings.foldl addPosting s

/-- Takes in an entry. The closing of an unknown account changes nothing. -/
def addEntry (texts : Bool) (s : Summary) (d : Directive) : Summary :=
  match d.body with
  | .transaction t => s.addTransaction texts t d.location?
  | .opening account currencies _ =>
    { s with accounts := s.accounts.opening account d.date currencies }
  | .closing account => { s with accounts := (s.accounts.closing? account d.date).getD s.accounts }
  | _ => s

/-- The summary without payees and narrations that say nothing. -/
def withoutBlanks (s : Summary) : Summary := { s with vocabulary := s.vocabulary.withoutBlanks }

/-- The summary of some entries. -/
def ofEntries (texts : Bool) (entries : List Directive) : Summary :=
  (entries.foldl (addEntry texts) {}).withoutBlanks

/-- Attaches the balances of a balance report, and counts them. -/
def addReport (s : Summary) (lines : List String) : Summary × Nat :=
  let (accounts, count) := s.accounts.addReport lines
  ({ s with accounts }, count)

end Summary

end DoubleEntry
