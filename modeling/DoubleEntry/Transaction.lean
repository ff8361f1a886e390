import DoubleEntry.Cost
import DoubleEntry.Flag
import DoubleEntry.Metadata

/-!
# Transactions

A transaction moves units between accounts by postings. A posting may leave its number, its currency
or both to be inferred from the others.

* `Posting.amount?`: the units, if both parts are there.
* `Posting.text`, `Transaction.text`: the form in which they are written in a ledger.
-/

namespace DoubleEntry

/-- The units of a posting, of which a part may be missing. -/
inductive Units where
  | complete (a : Amount)
  /-- The currency is missing. -/
  | numberOnly (n : Decimal)
  /-- The number is missing. -/
  | currencyOnly (c : Currency)
deriving DecidableEq, Repr

namespace Units

/-- The number, if it is there. -/
def number? : Units → Option Decimal
  | complete a => some a.number
  | numberOnly n => some n
  | currencyOnly _ => none

/-- The currency, if it is there. -/
def currency? : Units → Option Currency
  | complete a => some a.currency
  | numberOnly _ => none
  | currencyOnly c => some c

/-- The parts that are there. -/
def text : Units → String
  | complete a => a.text
  | numberOnly n => n.text
  | currencyOnly c => c

end Units

/-- One leg of a transaction. -/
structure Posting where
  /-- The account whose holding changes. -/
  account : Account
  /-- By how much; `none` if the whole amount is to be inferred. -/
  units : Option Units := none
  cost : Option Cost := none
  price : Option Price := none
  flag : Option Char := none
  metadata : Metadata := {}
deriving DecidableEq, Repr

namespace Posting

/-- The units, if their number and currency are both there. -/
def amount? (p : Posting) : Option Amount :=
  match p.units with
  | some (.complete a) => some a
  | _ => none

/-- Whether the amount was filled in by interpolation. -/
def isAutomatic (p : Posting) : Bool := p.metadata.isAutomatic

/-- The posting as an indented line. -/
def text (p : Posting) : String :=
  let flag := p.flag.elim "" fun c => c.toString ++ " "
  let units := p.units.elim "" fun u => "  " ++ u.text
  let cost := p.cost.elim "" fun c => " " ++ c.text
  let price := p.price.elim "" fun q => " " ++ q.text
  "  " ++ flag ++ p.account ++ units ++ cost ++ price

end Posting

/-- A movement of units between accounts. -/
structure Transaction where
  flag : Char := Flag.okay
  payee : Option String := none
  narration : String := ""
  tags : List String := []
  links : List String := []
  postings : List Posting := []
deriving DecidableEq, Repr

namespace Transaction

/-- The transaction with its date, one line for it and one for each posting. -/
def text (t : Transaction) (date : Date) : String :=
  let payee := t.payee.elim "" fun p => s!"\"{p}\" "
  let tags := t.tags.map fun tag => s!" #{tag}"
  let links := t.links.map fun link => s!" ^{link}"
  let postings := t.postings.map fun p => "\n" ++ p.text
  s!"{date} {t.flag} {payee}\"{t.narration}\"" ++ String.join (tags ++ links ++ postings)

end Transaction

end DoubleEntry
