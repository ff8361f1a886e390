import DoubleEntry.Directive

/-!
# Problems

What can be wrong with the entries of a ledger, once their amounts are filled in. Every problem has
a code, of which the first digit tells the subject, and a message.

* `Problem`: the rules that can be broken.
* `Violation`: a problem with the date and place of the directive that has it.
-/

namespace DoubleEntry

/-- A rule that a directive breaks. -/
inductive Problem where
  /-- The account was opened before. -/
  | alreadyOpen (account : Account) (opened : Date)
  /-- The account was closed before. -/
  | alreadyClosed (account : Account)
  /-- The account to close was never opened. -/
  | closedUnopened (account : Account)
  /-- The account in use was never opened. -/
  | unknownAccount (account : Account)
  /-- The account is used on a day before it opens. -/
  | usedBeforeOpening (account : Account) (used opened : Date)
  /-- The account is used on a day after it was closed. -/
  | usedAfterClosing (account : Account) (used closed : Date)
  /-- A transaction moves nothing. -/
  | noPostings
  /-- The account may not hold the currency. -/
  | currencyNotAllowed (account : Account) (currency : Currency)
  /-- No commodity directive names the currency. -/
  | undeclaredCurrency (currency : Currency)
  /-- The weights of a transaction leave a residual in a currency. -/
  | unbalanced (residual : Amount)
  /-- The account and those below it hold something else than asserted; `excess` is how much more.
  -/
  | assertionFailed (account : Account) (asserted : Amount) (held excess : Decimal)
  /-- The file of a document does not exist. -/
  | missingDocument (path : String)
deriving DecidableEq, Repr

namespace Problem

/-- The code of the problem. -/
def code : Problem → String
  | closedUnopened _ | unknownAccount _ | usedBeforeOpening .. => "E1001"
  | alreadyOpen .. => "E1002"
  | alreadyClosed _ | usedAfterClosing .. => "E1003"
  | assertionFailed .. => "E2001"
  | unbalanced _ => "E3001"
  | noPostings => "E3003"
  | undeclaredCurrency _ => "E5001"
  | currencyNotAllowed .. => "E5002"
  | missingDocument _ => "E8001"

/-- The words for the problem. -/
def message : Problem → String
  | alreadyOpen account opened => s!"Duplicate open directive for {account} (opened on {opened})"
  | alreadyClosed account => s!"Duplicate close directive for {account}"
  | closedUnopened account => s!"Unopened account {account} is being closed"
  | unknownAccount account => s!"Invalid reference to unknown account '{account}'"
  | usedBeforeOpening account used opened =>
    s!"Account {account} used on {used} but not opened until {opened}"
  | usedAfterClosing account used closed =>
    s!"Account {account} used on {used} but was closed on {closed}"
  | noPostings => "Transaction has no postings"
  | currencyNotAllowed account currency => s!"Invalid currency {currency} for account '{account}'"
  | undeclaredCurrency currency => s!"Currency {currency} not declared"
  | unbalanced residual => s!"Transaction does not balance: ({residual})"
  | assertionFailed account asserted held excess =>
    let direction := if excess.negative then "too little" else "too much"
    s!"Balance failed for '{account}': expected {asserted} != accumulated {held} " ++
      s!"{asserted.currency} ({excess.abs} {direction})"
  | missingDocument path => s!"File does not exist: '{path}'"

end Problem

/-- A problem with the directive that has it. -/
structure Violation where
  problem : Problem
  /-- The date of the directive. -/
  date : Date
  /-- Where the directive was written, if that is known. -/
  location : Option Location
deriving DecidableEq, Repr

end DoubleEntry
