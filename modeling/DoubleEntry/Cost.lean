import DoubleEntry.Amount
import DoubleEntry.Date

/-!
# Costs and prices

What a posting says about the value of its units: the cost at which they are held, and the price at
which they change hands.

* `Cost.totalFor?`: what units are worth at cost, if the cost says enough.
* `Price.convert`: what units are worth at a price.
-/

namespace DoubleEntry

/-- The cost at which units are held, as far as it was written: `{150 USD, 2024-01-01, "lot"}`. -/
structure Cost where
  /-- The cost of one unit. -/
  perUnit : Option Decimal := none
  /-- The cost of all units, or what is added to the cost of the single ones. -/
  total : Option Decimal := none
  /-- The currency of both. -/
  currency : Option Currency := none
  /-- The day of acquisition. -/
  date : Option Date := none
  /-- A name for the lot. -/
  label : Option String := none
deriving DecidableEq, Repr

namespace Cost

/-- The cost of some units: the cost per unit times their number plus the total, or the total with
the sign of the units. Without a currency or a number there is none. -/
def totalFor? (cost : Cost) (units : Amount) : Checked (Option Amount) :=
  match cost.currency, cost.perUnit, cost.total with
  | none, _, _ => return none
  | some _, none, none => return none
  | some currency, some perUnit, total => do
    let product ← units.number.mul perUnit
    let number ← product.add (total.getD .zero)
    return some ⟨number, currency⟩
  | some currency, none, some total =>
    return some ⟨if units.number.negative then total.neg else total, currency⟩

/-- The cost in braces. Of a number per unit and a total, only the first is shown. -/
def text (cost : Cost) : String :=
  let value :=
    match cost.perUnit, cost.total, cost.currency with
    | some n, _, some c => [s!"{n} {c}"]
    | none, some n, some c => [s!"# {n} {c}"]
    | none, none, some c => [c]
    | _, _, none => []
  let date := cost.date.toList.map Date.text
  let label := cost.label.toList.map fun label => s!"\"{label}\""
  "\x7b" ++ ", ".intercalate (value ++ date ++ label) ++ "\x7d"

end Cost

/-- The price at which units change hands. -/
inductive Price where
  /-- The price of one unit: `@ 1.10 USD`. -/
  | unit (a : Amount)
  /-- The price of all units together: `@@ 110 USD`. -/
  | total (a : Amount)
deriving DecidableEq, Repr

namespace Price

/-- The amount written. -/
def amount : Price → Amount
  | unit a => a
  | total a => a

/-- What some units are worth at the price. A total takes the sign of the units. -/
def convert (price : Price) (units : Amount) : Checked Amount :=
  match price with
  | unit a => return ⟨← units.number.mul a.number, a.currency⟩
  | total a => return if units.number.negative then a.neg else a

/-- The price as it is written. -/
def text : Price → String
  | unit a => s!"@ {a}"
  | total a => s!"@@ {a}"

end Price

end DoubleEntry
