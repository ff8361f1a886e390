import DoubleEntry.Booking.Basic
import DoubleEntry.Loading.Basic
import DoubleEntry.NumberStyle
import DoubleEntry.Validation.Basic

/-!
# Ledgers

A ledger is loaded from its files, its entries are sorted, completed and padded, and the result is
validated. What goes wrong on the way is collected and stops nothing, apart from a root file that
cannot be read.

* `Ledger.load`: the entries of a ledger, with everything that is wrong with them.
* `Ledger.numberStyle`: how numbers are written in the ledger.
-/

namespace DoubleEntry

/-- Something wrong with a ledger, at a line of its files. -/
structure LedgerError where
  /-- The file, empty if it is not known. -/
  file : String
  /-- The line from 1, or 0 if it is not known. -/
  line : Nat
  message : String
deriving DecidableEq, Repr

namespace LedgerError

/-- An error at a place. -/
def located (location : Option Location) (message : String) : LedgerError :=
  match location with
  | some l => ⟨l.file, l.line, message⟩
  | none => ⟨"", 0, message⟩

/-- The error with its place in front. -/
def text (e : LedgerError) : String := s!"{e.file}:{e.line}: {e.message}"

/-- The error about a problem of loading. -/
def ofLoadProblem (p : LoadProblem) : LedgerError := .located (some p.location) p.message

/-- The error about an entry that cannot be completed, if it is one. -/
def ofBooked? (b : Booked) : Option LedgerError :=
  b.failure.map fun failure => .located b.directive.location? failure.message

/-- The error about a pad without use. -/
def ofUnusedPad (p : DatedPad) : LedgerError := .located p.metadata.location? DatedPad.unusedMessage

/-- The error about a violation. -/
def ofViolation (v : Violation) : LedgerError := .located v.location v.problem.message

end LedgerError

/-- A ledger ready for reports. -/
structure Ledger where
  /-- The entries in order, with filled-in amounts and padding transactions. -/
  entries : List Directive
  /-- What is wrong with them, in the order of the steps that found it. -/
  errors : List LedgerError
  settings : Settings

namespace Ledger

/-- Completes and validates what was loaded. `documents` tells how documents are checked. -/
def ofLoaded (loaded : Loaded) (documents : Validation.DocumentRule) : Checked Ledger := do
  let booked ← bookAll (Directive.sort loaded.directives)
  let (entries, unused) ← mergePadding (booked.map (·.directive))
  let violations ← validate { documents := some documents } entries
  return {
    entries
    errors := loaded.problems.map .ofLoadProblem ++ booked.filterMap LedgerError.ofBooked? ++
      unused.map .ofUnusedPad ++ violations.map .ofViolation
    settings := loaded.settings }

/-- Loads a ledger from its root file. Documents are looked for beside that file. -/
def load (files : Files) (root : String) : ExceptT LoadFailure Checked Ledger := do
  let loaded ← DoubleEntry.load files root
  ofLoaded loaded
    { base := loaded.rootPath?.map Path.parent, isPresent := files.exist }

/-- The amounts that the user wrote in a directive. -/
def writtenAmounts (d : Directive) : List Amount :=
  match d.body with
  | .transaction t =>
    if t.flag = Flag.padding then []
    else
      (t.postings.filter (!·.isAutomatic)).flatMap fun p =>
        let cost := p.cost.bind fun c =>
          match c.perUnit, c.currency with
          | some n, some currency => some (Amount.mk n currency)
          | _, _ => none
        p.amount?.toList ++ (p.price.map (·.amount)).toList ++ cost.toList
  | .balance b => [b.amount]
  | .price _ amount => [amount]
  | _ => []

/-- How numbers are written in the ledger. Amounts that were filled in do not count, for their
precision is not the user's. -/
def numberStyle (ledger : Ledger) : NumberStyle :=
  (ledger.entries.flatMap writtenAmounts).foldl .record { commas := ledger.settings.renderCommas }

end Ledger

end DoubleEntry
