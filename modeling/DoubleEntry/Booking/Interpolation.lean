import DoubleEntry.Booking.Balance

/-!
# Interpolation

Fills in what postings leave out, so that the transaction balances.

* A posting with a number alone takes its currency from its cost or price, or else the one currency
  that all complete postings share.
* A posting with a currency alone takes the number that brings the currency it weighs in to zero. No
  two may name one currency.
* One posting may have nothing written. It becomes one posting for each currency that is left over.

Main definition: `Transaction.interpolate`. What was filled in is marked as automatic.
-/

namespace DoubleEntry

/-- Why the missing amounts of a transaction cannot be told. -/
inductive InterpolationError where
  /-- Several postings lack the number of one currency. -/
  | multipleMissing (currency : Currency) (count : Nat)
  /-- Several postings have nothing written. -/
  | multipleOpen (count : Nat)
  /-- Nothing tells the currency of a posting. -/
  | noCurrency (account : Account)
  /-- The cost or price of a posting does not tell what one unit weighs. -/
  | noNumber (account : Account)
deriving DecidableEq, Repr

/-- The words for the error. -/
def InterpolationError.message : InterpolationError → String
  | multipleMissing currency _ => s!"multiple postings missing amounts for currency {currency}"
  | multipleOpen count => s!"too many postings without an amount ({count})"
  | noCurrency account => s!"cannot infer currency for posting to account {account}"
  | noNumber account => s!"cannot infer number for posting to account {account}"

/-- Filling in amounts, which may turn out to be ambiguous. -/
abbrev Filling := ExceptT InterpolationError Checked

/-- A transaction without missing amounts. -/
structure Interpolation where
  transaction : Transaction
  /-- The positions of the postings that were filled in. -/
  filled : List Nat
  /-- The residual of the transaction. -/
  residual : Totals

namespace Posting

/-- The currency that the cost of the posting names, or else its price. -/
def contextCurrency? (p : Posting) : Option Currency :=
  (p.cost.bind (·.currency)).or (p.price.map (·.amount.currency))

/-- The posting with a currency for a number that stands alone. -/
def withCurrency (p : Posting) (shared : Option Currency) : Filling Posting :=
  match p.units with
  | some (.numberOnly n) =>
    match p.contextCurrency?.or shared with
    | some currency => return { p with units := some (.complete ⟨n, currency⟩) }
    | none => throw (.noCurrency p.account)
  | _ => return p

/-- The currency that stands alone on the posting. -/
def missingNumber? (p : Posting) : Option Currency :=
  match p.units with
  | some (.currencyOnly c) => some c
  | _ => none

/-- The currency in which units of the posting weigh, and how much one of them does. A price or cost
of all units together does not tell. -/
def basis? (p : Posting) (currency : Currency) : Option (Currency × Decimal) :=
  match p.cost, p.price with
  | some cost, _ =>
    match cost.perUnit, cost.currency with
    | some n, some c => some (c, n)
    | _, _ => none
  | none, some (.unit a) => some (a.currency, a.number)
  | none, some (.total _) => none
  | none, none => some (currency, .one)

/-- The posting with units that were filled in. -/
def fill (p : Posting) (a : Amount) : Posting :=
  { p with units := some (.complete a), metadata := p.metadata.setAutomatic }

end Posting

namespace Transaction

/-- The currency that all complete postings share. -/
def sharedCurrency? (t : Transaction) : Option Currency :=
  match t.postings.filterMap Posting.amount? with
  | [] => none
  | a :: rest => if rest.all (·.currency = a.currency) then some a.currency else none

end Transaction

/-- The postings that lack a number, by the order of their currencies. -/
def missingNumbers (postings : List Posting) : List (Currency × Posting) :=
  (postings.filterMap fun p => p.missingNumber?.map (·, p)).mergeSort fun a b => a.1 ≤ b.1

/-- The first currency of which several numbers are missing, with how many there are. -/
def repeatedCurrency? : List (Currency × Posting) → Option (Currency × Nat)
  | [] => none
  | (c, _) :: rest =>
    let count := (rest.filter (·.1 = c)).length
    if count = 0 then repeatedCurrency? rest else some (c, count + 1)

/-- Solves one posting for its number: what one unit weighs, into what is left over in the currency
it weighs in. After that nothing is left over there. -/
def solveNumber (state : Totals × List (Currency × Decimal)) (missing : Currency × Posting) :
    Filling (Totals × List (Currency × Decimal)) := do
  let (residual, solved) := state
  let (currency, p) := missing
  match p.basis? currency with
  | none => throw (.noNumber p.account)
  | some (weighsIn, perUnit) =>
    if perUnit.isZero then throw (.noNumber p.account)
    else
      let number ← (residual.number weighsIn).neg.div perUnit
      return (residual.erase weighsIn, solved ++ [(currency, number)])

/-- What stands in the place of a posting, and whether it was filled in: a posting without units
gives one for each currency that is left over. -/
def completed (residual : Totals) (solved : List (Currency × Decimal)) (p : Posting) :
    List (Posting × Bool) :=
  match p.units with
  | none =>
    (residual.toList.filter (!·.2.isZero)).map fun (currency, n) =>
      ({ p with cost := none, price := none }.fill ⟨n.neg, currency⟩, true)
  | some (.currencyOnly c) => [(p.fill ⟨(solved.lookup c).getD .zero, c⟩, true)]
  | some _ => [(p, false)]

/-- Fills in the missing amounts of a transaction. -/
def Transaction.interpolate (t : Transaction) : Filling Interpolation := do
  let postings ← t.postings.mapM (·.withCurrency t.sharedCurrency?)
  let residual ← residualOf postings
  let missing := missingNumbers postings
  match repeatedCurrency? missing with
  | some (currency, count) => throw (.multipleMissing currency count)
  | none => pure ()
  let openCount := postings.countP (·.units.isNone)
  if 1 < openCount then throw (.multipleOpen openCount)
  let (leftOver, solved) ← missing.foldlM solveNumber (residual, [])
  let done := postings.flatMap (completed leftOver solved)
  let result := { t with postings := done.map (·.1) }
  return {
    transaction := result
    filled := (done.zipIdx.filter (·.1.2)).map (·.2)
    residual := ← result.residual }

end DoubleEntry
