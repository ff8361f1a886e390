import DoubleEntry.Booking.Interpolation
import DoubleEntry.Booking.Padding

/-!
# Booking

Makes the written entries of a ledger complete.

* `Directive.book`: fills in the amounts of a transaction.
* `bookAll`: does so for all directives, and tells which transactions cannot be completed.
-/

namespace DoubleEntry

/-- A directive after booking: complete, or as it was with the reason why it cannot be completed. -/
structure Booked where
  directive : Directive
  failure : Option InterpolationError := none
deriving DecidableEq, Repr

/-- Fills in the amounts of a transaction. Other directives have none to fill in. -/
def Directive.book (d : Directive) : Checked Booked :=
  match d.body with
  | .transaction t => do
    match ← t.interpolate.run with
    | .ok result => return { directive := { d with body := .transaction result.transaction } }
    | .error failure => return { directive := d, failure }
  | _ => return { directive := d }

/-- Fills in the amounts of all transactions. -/
def bookAll (directives : List Directive) : Checked (List Booked) := directives.mapM Directive.book

end DoubleEntry
