import DoubleEntry.Directive
import DoubleEntry.Holdings
import DoubleEntry.NumberStyle
import DoubleEntry.Unicode.Space

/-!
# Balance report

What every account holds in the end, as a table with a line for each account and currency:

    Assets
    Assets:Cash     -12.50 USD
    Assets:Wallet     5.00 CHF
                    100.00 EUR

* `Holdings.realized`: what every account holds, at cost, with the accounts above those in use.
* `balanceLines`: the table. An account that holds nothing has a line with its name alone.
* `BalanceLine.ofText?`: the account and the number of a line.
-/

namespace DoubleEntry

/-- What a posting adds to its account: its units, or their cost if it says enough. -/
def Posting.held? (p : Posting) : Checked (Option Amount) := do
  match p.amount? with
  | none => return none
  | some units =>
    let total ← p.cost.elim (pure none) fun cost => cost.totalFor? units
    return some (total.getD units)

namespace Holdings

/-- Gives an account an inventory, an empty one if it has none. -/
def mention (h : Holdings) (account : Account) : Holdings :=
  h.insert account (h.inventory account)

/-- Adds what a posting adds to its account. -/
def hold (h : Holdings) (p : Posting) : Checked Holdings := do
  match ← p.held? with
  | some held => h.add p.account held
  | none => return h

/-- Takes in an entry: an opening mentions its account, a transaction moves what it moves. -/
def realize (h : Holdings) (d : Directive) : Checked Holdings :=
  match d.body with
  | .opening account _ _ => return h.mention account
  | .transaction t => t.postings.foldlM hold h
  | _ => return h

/-- What every account holds after some entries. The accounts above are there too, with what was
posted to them directly. -/
def realized (entries : List Directive) : Checked Holdings := do
  let h ← entries.foldlM realize {}
  return (h.keys.flatMap Account.ancestors).foldl mention h

end Holdings

/-! ## Lines -/

/-- An account with the numbers and currencies that it holds, ready to print. -/
structure AccountBalance where
  account : Account
  /-- The formatted numbers with their currencies, in the order of the currencies. -/
  cells : List (String × Currency)
deriving DecidableEq, Repr

namespace AccountBalance

/-- The balance of an account that holds an inventory. -/
def ofInventory (style : NumberStyle) (account : Account) (inventory : Inventory) :
    AccountBalance where
  account
  cells :=
    (inventory.positions.mergeSort fun a b => a.currency ≤ b.currency).map fun a =>
      (style.format a.number a.currency, a.currency)

/-- The balances of all accounts, each after those above it. -/
def ofHoldings (style : NumberStyle) (h : Holdings) : List AccountBalance :=
  (h.toList.map fun (account, inventory) => ofInventory style account inventory).mergeSort
    fun a b => a.account.isBefore b.account

/-- The widths of the two columns: the longest name, and the longest number with two blanks. -/
def widths (balances : List AccountBalance) : Nat × Nat :=
  ((balances.map (·.account.length)).max?.getD 0,
    ((balances.flatMap (·.cells)).map (·.1.length)).max?.getD 0 + 2)

/-- As many blanks as a text lacks to a width. -/
def blanks (width : Nat) (text : String) : String :=
  String.ofList (List.replicate (width - text.length) ' ')

/-- A line with a number. -/
def line (widths : Nat × Nat) (name : String) (cell : String × Currency) : String :=
  name ++ blanks widths.1 name ++ " " ++ blanks widths.2 cell.1 ++ cell.1 ++ " " ++ cell.2

/-- The lines of one account. Only the first one shows the name. -/
def lines (widths : Nat × Nat) (b : AccountBalance) : List String :=
  match b.cells with
  | [] => [b.account]
  | cell :: rest => line widths b.account cell :: rest.map (line widths "")

end AccountBalance

/-- The balance report of some entries. -/
def balanceLines (style : NumberStyle) (entries : List Directive) : Checked (List String) := do
  let balances := AccountBalance.ofHoldings style (← Holdings.realized entries)
  return balances.flatMap (·.lines (AccountBalance.widths balances))

/-! ## Reading lines -/

/-- What a line of a balance report says about an account. -/
structure BalanceLine where
  /-- The account, empty on a line that continues another one. -/
  account : Account
  /-- The number as it is printed. -/
  number : String
deriving DecidableEq, Repr

namespace BalanceLine

/-- Reads a line: the account before the first blank, and the first word after it. A line without
one of them says nothing. -/
def ofText? (line : String) : Option BalanceLine :=
  let (account, rest) := line.toList.span (· ≠ ' ')
  let number := (rest.dropWhile Unicode.isSpace).takeWhile (!Unicode.isSpace ·)
  if number.isEmpty then none else some ⟨String.ofList account, String.ofList number⟩

end BalanceLine

end DoubleEntry
