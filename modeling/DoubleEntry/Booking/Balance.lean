import Std.Data.TreeMap
import DoubleEntry.Transaction

/-!
# The balance of a transaction

A transaction balances if the weights of its postings cancel in every currency, up to a tolerance
that the written amounts imply.

* `Posting.weight?`: what a posting contributes to the balance.
* `Transaction.residual`: the sum of the weights, by currency.
* `Transaction.tolerances`: the largest tolerance that a written amount implies, by currency.
* `Transaction.isBalanced`: whether every residual is within its tolerance.
-/

namespace DoubleEntry

/-- A number for each of some currencies, in the order of their codes. -/
abbrev Totals := Std.TreeMap Currency Decimal

namespace Totals

/-- The number for a currency, `0` if there is none. -/
def number (t : Totals) (currency : Currency) : Decimal := t.getD currency .zero

/-- Adds an amount to the number of its currency. -/
def add (t : Totals) (a : Amount) : Checked Totals :=
  return t.insert a.currency (← (t.number a.currency).add a.number)

/-- Raises the number of a currency to the one given, if it is smaller or there is none. -/
def raise (t : Totals) (currency : Currency) (n : Decimal) : Totals :=
  match t[currency]? with
  | some m => if m < n then t.insert currency n else t
  | none => t.insert currency n

end Totals

/-! ## Weights -/

/-- What the posting contributes to the balance: its cost, or else its value at its price, or else
its units. An incomplete posting contributes nothing yet. -/
def Posting.weight? (p : Posting) : Checked (Option Amount) := do
  match p.amount? with
  | none => return none
  | some units =>
    match ← p.cost.elim (pure none) fun cost => cost.totalFor? units with
    | some total => return some total
    | none =>
      match p.price with
      | some price => return some (← price.convert units)
      | none => return some units

/-- Adds the weight of a posting, if it has one. -/
def Totals.addWeight (t : Totals) (p : Posting) : Checked Totals := do
  match ← p.weight? with
  | some weight => t.add weight
  | none => return t

/-- The sum of the weights of some postings, by currency. -/
def residualOf (postings : List Posting) : Checked Totals := postings.foldlM Totals.addWeight {}

/-- The sum of the weights of the postings, by currency. -/
def Transaction.residual (t : Transaction) : Checked Totals := residualOf t.postings

/-! ## Tolerances -/

/-- The tolerance in a currency in which no amount is written. -/
def defaultTolerance : Decimal where
  negative := false
  coefficient := 5
  scale := 3

/-- The largest tolerance that the amounts imply, by currency. -/
def tolerancesOf (amounts : List Amount) : Checked Totals :=
  amounts.foldlM (fun t a => return t.raise a.currency (← a.inferredTolerance)) {}

/-- The tolerances that the written amounts imply. Those filled in do not count, for their
precision is not the user's. -/
def Transaction.tolerances (t : Transaction) : Checked Totals :=
  tolerancesOf ((t.postings.filter (!·.isAutomatic)).filterMap Posting.amount?)

/-- The tolerance for a currency. -/
def Totals.tolerance (t : Totals) (currency : Currency) : Decimal :=
  t.getD currency defaultTolerance

/-- The residuals that exceed their tolerance, in the order of the currencies. -/
def Totals.exceeding (residual tolerances : Totals) : List (Currency × Decimal) :=
  residual.toList.filter fun (currency, n) => ¬n.abs ≤ tolerances.tolerance currency

/-- Whether every residual is within its tolerance. -/
def Transaction.isBalanced (t : Transaction) (tolerances : Totals) : Checked Bool :=
  return (← t.residual).toList.all fun (currency, n) => n.abs ≤ tolerances.tolerance currency

end DoubleEntry
