import Std.Data.TreeMap
import DoubleEntry.Report.Balances

/-!
# Account registry

The accounts that were opened, with their dates, currencies and balances.

* `Registry.opening`: a new record, in place of any older one of the account.
* `Registry.closing?`, `Registry.addBalance?`: change the record of a known account.
* `Registry.addReport`: takes the balances from the lines of a balance report.
-/

namespace DoubleEntry

/-- What is known of an account. -/
structure AccountRecord where
  opened : Date
  /-- The day of closing; `none` while the account is open. -/
  closed : Option Date := none
  /-- The currencies that the account is restricted to, as they are written. -/
  currencies : List Currency := []
  /-- The numbers of the balance report, as they are printed. -/
  balances : List String := []
deriving DecidableEq, Repr

/-- The records of the opened accounts, in the order of their names. -/
abbrev Registry := Std.TreeMap Account AccountRecord

namespace Registry

/-- Starts the record of an account. An account without a name has none. -/
def opening (r : Registry) (account : Account) (date : Date) (currencies : List Currency) :
    Registry :=
  if account = "" then r else r.insert account { opened := date, currencies }

/-- Changes the record of an account, if it has one. -/
def update? (r : Registry) (account : Account) (change : AccountRecord → AccountRecord) :
    Option Registry :=
  r[account]?.map fun record => r.insert account (change record)

/-- Notes the closing of a known account. -/
def closing? (r : Registry) (account : Account) (date : Date) : Option Registry :=
  r.update? account fun record => { record with closed := some date }

/-- Adds a balance to the record of a known account. -/
def addBalance? (r : Registry) (line : BalanceLine) : Option Registry :=
  r.update? line.account fun record => { record with balances := record.balances ++ [line.number] }

/-- Adds the balance that a line of a balance report states, and counts it if its account is
known. -/
def addLine (counted : Registry × Nat) (line : String) : Registry × Nat :=
  match (BalanceLine.ofText? line).bind counted.1.addBalance? with
  | some r => (r, counted.2 + 1)
  | none => counted

/-- Adds all balances of a report, and counts them. -/
def addReport (r : Registry) (lines : List String) : Registry × Nat := lines.foldl addLine (r, 0)

end Registry

end DoubleEntry
