import DoubleEntry.Transaction

/-!
# Directives

The dated entries of a ledger. What is common to all, the date and the metadata, is in `Directive`;
the kinds are the constructors of `Directive.Body`.

* `Directive.rank`: the place in the order of a ledger, by date and then by kind.
* `Directive.sort`: a stable sort by rank.
-/

namespace DoubleEntry

/-- The statement that an account holds a number of units at the start of a day. -/
structure Assertion where
  account : Account
  /-- What the account should hold. -/
  amount : Amount
  /-- By how much the holding may differ, if that was written. -/
  tolerance : Option Decimal := none
deriving DecidableEq, Repr

/-- The tolerance of an assertion: the one written, or else half a unit of its last place. -/
def Assertion.effectiveTolerance (b : Assertion) : Checked Decimal :=
  b.tolerance.elim b.amount.inferredTolerance pure

/-- The request to make the next assertions on an account hold by a transfer from a source. -/
structure Pad where
  account : Account
  /-- The account that the transfer comes from. -/
  source : Account
deriving DecidableEq, Repr

namespace Directive

/-- What a directive says. -/
inductive Body where
  | transaction (t : Transaction)
  | balance (b : Assertion)
  | opening (account : Account) (currencies : List Currency) (booking : Option String)
  | closing (account : Account)
  | commodity (currency : Currency)
  | pad (p : Pad)
  | event (kind value : String)
  | query (name query : String)
  | note (account : Account) (comment : String)
  | document (account : Account) (path : String)
  | price (currency : Currency) (amount : Amount)
  | custom (kind : String) (values : List MetaValue)
deriving DecidableEq, Repr

end Directive

/-- A dated entry of a ledger. -/
structure Directive where
  date : Date
  metadata : Metadata := {}
  body : Directive.Body
deriving DecidableEq, Repr

namespace Directive

/-- The name of the kind. -/
def Body.kind : Body → String
  | transaction _ => "transaction"
  | balance _ => "balance"
  | opening .. => "open"
  | closing _ => "close"
  | commodity _ => "commodity"
  | pad _ => "pad"
  | event .. => "event"
  | query .. => "query"
  | note .. => "note"
  | document .. => "document"
  | price .. => "price"
  | custom .. => "custom"

/-- The order of the kinds within a day: accounts are opened before they are used, pads come before
assertions, assertions hold at the start of the day, and accounts are closed at its end. -/
def Body.priority : Body → Nat
  | opening .. => 0
  | commodity _ => 1
  | pad _ => 2
  | balance _ => 3
  | transaction _ => 4
  | note .. => 5
  | document .. => 6
  | event .. => 7
  | query .. => 8
  | price .. => 9
  | closing _ => 10
  | custom .. => 11

/-- Orders directives by date, and on one day by the priority of their kind. -/
def rank (d : Directive) : Nat := d.date.ordinal * 12 + d.body.priority

/-- Sorts directives by rank; those of one rank keep their order. -/
def sort (l : List Directive) : List Directive := l.mergeSort fun a b => a.rank ≤ b.rank

/-- The transaction, if the directive is one. -/
def transaction? (d : Directive) : Option Transaction :=
  match d.body with
  | .transaction t => some t
  | _ => none

/-- The place where the directive was written, if it is known. -/
def location? (d : Directive) : Option Location := d.metadata.location?

end Directive

end DoubleEntry
