import DoubleEntry.Decimal.Arithmetic
import DoubleEntry.Decimal.Text

/-!
# Amounts

A number of units of one currency. The scale of the number says how precisely it was written, and
`Amount.inferredTolerance` reads a tolerance off it: half a unit of the last place.
-/

namespace DoubleEntry

/-- A currency, a share or any other unit, by its code. -/
abbrev Currency := String

/-- A number of units of a currency. -/
structure Amount where
  /-- How many. -/
  number : Decimal
  /-- Of what. -/
  currency : Currency
deriving DecidableEq, Repr

namespace Amount

/-- The amount as text: `12.50 USD`. -/
def text (a : Amount) : String := s!"{a.number} {a.currency}"

instance : ToString Amount := ⟨text⟩

/-- Whether the number is zero. -/
def isZero (a : Amount) : Bool := a.number.isZero

/-- The opposite amount. -/
def neg (a : Amount) : Amount := { a with number := a.number.neg }

/-- Half a unit of the last place written: `0.005` for an amount with two places. -/
def inferredTolerance (a : Amount) : Checked Decimal := Decimal.halfUnit a.number.scale

/-- Whether two amounts are of one currency and differ by at most the tolerance. -/
def isNear (a b : Amount) (tolerance : Decimal) : Checked Bool :=
  if a.currency = b.currency then do
    let difference ← a.number.sub b.number
    return difference.abs ≤ tolerance
  else return false

end Amount

end DoubleEntry
