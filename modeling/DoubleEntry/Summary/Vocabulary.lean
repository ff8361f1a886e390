import Std.Data.TreeSet
import DoubleEntry.Booking.Padding

/-!
# Vocabulary

The names that the transactions of a ledger use: currencies, payees, narrations, tags and links,
each set in order and without repetition.

* `Vocabulary.addTransaction`: collects the names of a transaction.
* `Vocabulary.withoutBlanks`: drops payees and narrations that say nothing.
-/

namespace DoubleEntry

/-- Whether the transaction was made for a pad. -/
def Transaction.isPadding (t : Transaction) : Bool :=
  DatedPad.narrationStart.toList.isPrefixOf t.narration.toList

/-- The names in use. -/
structure Vocabulary where
  commodities : Std.TreeSet String := {}
  payees : Std.TreeSet String := {}
  narrations : Std.TreeSet String := {}
  tags : Std.TreeSet String := {}
  links : Std.TreeSet String := {}

namespace Vocabulary

/-- Payees and narrations that say nothing. -/
def blanks : List String := ["", "None"]

/-- The currencies that the postings of a transaction name. -/
def currencies (t : Transaction) : List Currency :=
  (t.postings.filterMap fun p => p.units.bind (·.currency?)).filter (· ≠ "")

/-- Collects the names of a transaction, its payee and narration only if `texts` are wanted. From a
transaction that was made for a pad come no narration, tags and links. -/
def addTransaction (v : Vocabulary) (texts : Bool) (t : Transaction) : Vocabulary :=
  let payees := if texts then t.payee.toList.filter (· ≠ "") else []
  let narrations := if texts && !t.isPadding then [t.narration].filter (· ≠ "") else []
  { commodities := v.commodities.insertMany (currencies t)
    payees := v.payees.insertMany payees
    narrations := v.narrations.insertMany narrations
    tags := if t.isPadding then v.tags else v.tags.insertMany t.tags
    links := if t.isPadding then v.links else v.links.insertMany t.links }

/-- The vocabulary without payees and narrations that say nothing. -/
def withoutBlanks (v : Vocabulary) : Vocabulary :=
  { v with payees := v.payees.eraseMany blanks, narrations := v.narrations.eraseMany blanks }

end Vocabulary

end DoubleEntry
