import DoubleEntry.Decimal.Basic

/-!
# Rounding to a coefficient that fits

Sums and products are computed exactly and then brought within the bounds of a `Decimal` by giving
up the fewest places.

* `divHalfEven`: a quotient rounded to the nearest integer, a tie to the even neighbour.
* `Decimal.excess`: how many trailing digits a coefficient has to lose to fit.
* `Decimal.fit?`: an exact result as a decimal, or `none` if its integer part is too large.
* `Decimal.roundToPlaces`: at most so many places, for display.
* `Decimal.padToPlaces`: at least so many places, as long as the coefficient allows.
-/

namespace DoubleEntry

/-- `n / d` rounded to the nearest integer, a tie going to the even neighbour. -/
def divHalfEven (n d : Nat) : Nat :=
  let q := n / d
  let r := n % d
  if d < 2 * r ∨ (2 * r = d ∧ q % 2 = 1) then q + 1 else q

namespace Decimal

/-- The least number of trailing digits to drop so that the rest is below `limit`. -/
def excess (m : Nat) : Nat :=
  if m < limit then 0 else excess (m / 10) + 1
termination_by m
decreasing_by
  have : 0 < m := Nat.lt_of_lt_of_le (by decide : 0 < limit) (Nat.le_of_not_lt ‹_›)
  exact Nat.div_lt_self this (by decide)

/-- `± m / 10^s` with the fewest places dropped that make it fit. Rounding may carry the
coefficient to `limit` itself; then one more place is dropped. -/
def fit? (negative : Bool) (m s : Nat) : Option Decimal :=
  let d := max (s - maxScale) (excess m)
  if s < d then none
  else
    let q := divHalfEven m (tenPow d)
    if q < limit then ofParts? negative q (s - d)
    else if s = d then none
    else ofParts? negative (divHalfEven q 10) (s - d - 1)

/-- `a` with at most `places` places, a tie going to the even neighbour. A number other than zero
that rounds to zero loses its sign. -/
def roundToPlaces (a : Decimal) (places : Nat) : Decimal :=
  if a.scale ≤ places then a
  else
    let q := divHalfEven a.coefficient (tenPow (a.scale - places))
    (ofParts? (a.negative && (a.isZero || q != 0)) q places).getD a

/-- Appends zeros until the scale is `places`, or the next one would not fit. -/
def padToPlaces (a : Decimal) (places : Nat) : Decimal :=
  go (places - a.scale) a
where
  /-- Appends at most `n` zeros. -/
  go : Nat → Decimal → Decimal
    | 0, a => a
    | n + 1, a =>
      match ofParts? a.negative (a.coefficient * 10) (a.scale + 1) with
      | some b => go n b
      | none => a

end Decimal

end DoubleEntry
