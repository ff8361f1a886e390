import DoubleEntry.Ledger
import DoubleEntry.Report.JsonValue
import DoubleEntry.Summary.Basic

/-!
# Reports

The report on a ledger consists of four lines, each a JSON document: the errors, the accounts and
names in use, the items for review, and the amounts that were filled in.

* `reportLines`: the four lines for some errors and a summary.
* `Ledger.report`: the four lines for a ledger.
* `reportOnFile`: the four lines for the ledger of a root file, or why there are none.
-/

namespace DoubleEntry

/-- The document about an error. -/
def LedgerError.toJson (e : LedgerError) : JsonValue :=
  .object [("file", .string e.file), ("line", .number e.line), ("message", .string e.message)]

/-- The document about an account. While it is open its day of closing is empty. -/
def AccountRecord.toJson (r : AccountRecord) : JsonValue :=
  .object [("open", .string r.opened.text), ("close", .string (r.closed.elim "" Date.text)),
    ("currencies", .strings r.currencies), ("balance", .strings r.balances)]

/-- The document about the accounts. -/
def Registry.toJson (r : Registry) : JsonValue :=
  .object (r.toList.map fun (account, record) => (account, record.toJson))

/-- The sets of names with their keys. -/
def Vocabulary.fields (v : Vocabulary) : List (String × JsonValue) :=
  [("commodities", .strings v.commodities.toList), ("payees", .strings v.payees.toList),
    ("narrations", .strings v.narrations.toList), ("tags", .strings v.tags.toList),
    ("links", .strings v.links.toList)]

/-- The document about a flagged item. -/
def FlagNote.toJson (n : FlagNote) : JsonValue :=
  .object [("file", .string n.file), ("line", .number n.line), ("message", .string n.message),
    ("flag", .string n.flag.toString)]

/-- The document about the amounts that were filled in. -/
def AutomaticAmounts.toJson (index : AutomaticAmounts) : JsonValue :=
  .object (index.toList.map fun (file, lines) =>
    (file, .object (lines.toList.map fun (line, amounts) => (toString line, .strings amounts))))

/-- The four documents of a report. -/
def reportDocuments (errors : List LedgerError) (s : Summary) : List JsonValue :=
  [.array (errors.map LedgerError.toJson),
    .object (("accounts", s.accounts.toJson) :: s.vocabulary.fields),
    .array (s.flagged.map FlagNote.toJson),
    s.automatic.toJson]

/-- The four lines of a report. -/
def reportLines (errors : List LedgerError) (s : Summary) : List String :=
  (reportDocuments errors s).map JsonValue.text

/-- The summary of a ledger with the final balances of its accounts. Payees and narrations are
listed if `texts` are wanted. -/
def Ledger.summary (ledger : Ledger) (texts : Bool) : Checked Summary := do
  let balances ← balanceLines ledger.numberStyle ledger.entries
  return ((Summary.ofEntries texts ledger.entries).addReport balances).1

/-- The four lines for a ledger. -/
def Ledger.report (ledger : Ledger) (texts : Bool) : Checked (List String) :=
  return reportLines ledger.errors (← ledger.summary texts)

/-- The words for a ledger at a path that is not loaded, the cause of the failure again at the end.
-/
def LoadFailure.report (failure : LoadFailure) (path : String) : String :=
  let cause :=
    match failure with
    | unreadable _ cause => ": " ++ cause.message
    | cycle _ => ""
  s!"failed to load {path}: {failure.message}" ++ cause

/-- The four lines for the ledger of a root file, or the words for why it is not loaded. -/
def reportOnFile (files : Files) (texts : Bool) (root : String) :
    ExceptT String Checked (List String) := do
  match ← (Ledger.load files root).run with
  | .ok ledger => ledger.report texts
  | .error failure => throw (failure.report root)

end DoubleEntry
