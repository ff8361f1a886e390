import Std.Data.TreeMap
import DoubleEntry.Account
import DoubleEntry.Inventory
import DoubleEntry.Transaction

/-!
# Holdings

What every account holds, in the order of the account names.

* `Holdings.add`, `Holdings.addPostings`: put amounts into accounts.
* `Holdings.subtreeUnits`: the units of a currency in an account and those below it.
-/

namespace DoubleEntry

/-- The inventory of each account that has one. -/
abbrev Holdings := Std.TreeMap Account Inventory

namespace Holdings

/-- What an account holds; nothing if it has no inventory. -/
def inventory (h : Holdings) (account : Account) : Inventory := h.getD account {}

/-- Adds an amount to what an account holds. -/
def add (h : Holdings) (account : Account) (a : Amount) : Checked Holdings :=
  return h.insert account (← (h.inventory account).add a)

/-- Adds the units of some postings to what their accounts hold. Incomplete units change nothing. -/
def addPostings (h : Holdings) (postings : List Posting) : Checked Holdings :=
  postings.foldlM (fun h p => p.amount?.elim (pure h) (h.add p.account)) h

/-- The units of a currency in an account and all accounts below it, summed in the order of their
names. -/
def subtreeUnits (h : Holdings) (account : Account) (currency : Currency) : Checked Decimal :=
  let within := h.toList.filter fun (name, _) => Account.isWithin name account
  Decimal.sum (within.map fun (_, inventory) => inventory.units currency)

end Holdings

end DoubleEntry
