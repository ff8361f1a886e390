import DoubleEntry.Amount

/-!
# Inventories

What an account holds: one position per currency, none of them zero. Positions stand in the order in
which their currencies came to be held; one that returns to zero is dropped, and comes back last.

* `Inventory.add`, `Inventory.merge`: put in an amount, or all of another inventory.
* `Inventory.units`: the number held in a currency, `0` if there is none.
-/

namespace DoubleEntry

/-- Amounts held, by currency. -/
structure Inventory where
  /-- The amounts other than zero, one per currency. -/
  positions : List Amount := []
deriving DecidableEq, Repr

namespace Inventory

instance : Inhabited Inventory := ⟨{}⟩

/-- Adds an amount to the positions of an inventory. -/
def addTo (a : Amount) : List Amount → Checked (List Amount)
  | [] => return if a.isZero then [] else [a]
  | p :: rest =>
    if p.currency = a.currency then do
      let number ← p.number.add a.number
      return if number.isZero then rest else { p with number } :: rest
    else return p :: (← addTo a rest)

/-- Adds an amount to the position of its currency. -/
def add (inv : Inventory) (a : Amount) : Checked Inventory :=
  return ⟨← addTo a inv.positions⟩

/-- Adds amounts one by one, up to the first that does not fit. -/
def addMany (inv : Inventory) : List Amount → Inventory × Option ArithmeticError
  | [] => (inv, none)
  | a :: rest =>
    match inv.add a with
    | .exact inv | .rounded inv => inv.addMany rest
    | .error e => (inv, some e)

/-- Adds every position of another inventory, up to the first that does not fit. -/
def merge (inv other : Inventory) : Inventory × Option ArithmeticError :=
  inv.addMany other.positions

/-- The number of units held in a currency. -/
def units (inv : Inventory) (currency : Currency) : Decimal :=
  match inv.positions.find? (·.currency = currency) with
  | some p => p.number
  | none => .zero

/-- Whether nothing is held. -/
def isEmpty (inv : Inventory) : Bool := inv.positions.isEmpty

/-- The positions in parentheses: `(10.50 USD, 3 AAPL)`. -/
def text (inv : Inventory) : String :=
  "(" ++ ", ".intercalate (inv.positions.map Amount.text) ++ ")"

end Inventory

end DoubleEntry
