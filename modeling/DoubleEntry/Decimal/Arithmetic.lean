import DoubleEntry.Decimal.Rounding

/-!
# Arithmetic on decimals

Each operation is exact as long as its result fits, and otherwise rounds it to the nearest decimal
that does; a `Checked` result tells which. The scale of a result follows fixed rules, because it is
visible in the text:

* `Decimal.add`, `Decimal.sub`: the larger of the two scales, except that a zero operand leaves the
  other one as it is.
* `Decimal.mul`: the sum of the scales; a zero operand gives `0`.
* `Decimal.div`: as many places as the quotient needs, without trailing zeros beyond those that the
  scales of the operands already have.
-/

namespace DoubleEntry.Decimal

/-- Whether the number is exactly `m / 10^s`. -/
def Represents (a : Decimal) (m : Int) (s : Nat) : Prop := a.signed * tenPow s = m * tenPow a.scale

instance (a : Decimal) (m : Int) (s : Nat) : Decidable (a.Represents m s) :=
  inferInstanceAs (Decidable (a.signed * tenPow s = m * tenPow a.scale))

/-- The result of an operation, exact or not, or the reason that there is none. -/
def outcome (e : ArithmeticError) (isExact : Decimal → Bool) : Option Decimal → Checked Decimal
  | some a => if isExact a then .exact a else .rounded a
  | none => .error e

/-! ## Sums -/

/-- `a.signed / 10^a.scale + b.signed / 10^b.scale` at the larger of the two scales. -/
def exactSum (a b : Decimal) : Int :=
  a.signed * tenPow (max a.scale b.scale - a.scale) +
    b.signed * tenPow (max a.scale b.scale - b.scale)

/-- The sum of two numbers other than zero; a sum of zero has no sign. -/
def addNonzero? (a b : Decimal) : Option Decimal :=
  let total := exactSum a b
  fit? (decide (total < 0)) total.natAbs (max a.scale b.scale)

/-- The sum. A zero operand leaves the other one exactly as it is. -/
def add (a b : Decimal) : Checked Decimal :=
  if a.isZero then .exact b
  else if b.isZero then .exact a
  else
    outcome .additionOverflow (·.Represents (exactSum a b) (max a.scale b.scale)) (addNonzero? a b)

/-- The difference. Taking zero away leaves `a` as it is, taking `b` away from zero gives `b` with
the other sign, and between two zeros the second is the result. -/
def sub (a b : Decimal) : Checked Decimal :=
  if b.isZero then .exact (if a.isZero then b else a)
  else if a.isZero then .exact b.neg
  else
    outcome .subtractionOverflow (·.Represents (exactSum a b.neg) (max a.scale b.scale))
      (addNonzero? a b.neg)

/-- The sum of a list, from the left and starting at `0`. -/
def sum (l : List Decimal) : Checked Decimal := l.foldlM add zero

/-! ## Products -/

/-- Coefficients below this bound are multiplied in one word. -/
def wordLimit : Nat := Nat.pow 2 32

/-- The product of two numbers other than zero: that of the coefficients at the sum of the scales,
rounded to fit. A product of two coefficients of one word that rounds to zero has no sign, and with
more than 47 places is `0`. -/
def mulNonzero? (a b : Decimal) : Option Decimal :=
  let m := a.coefficient * b.coefficient
  let s := a.scale + b.scale
  let negative := a.negative != b.negative
  if a.coefficient < wordLimit ∧ b.coefficient < wordLimit ∧ maxScale < s then
    if 47 < s then some zero
    else
      let q := divHalfEven m (tenPow (s - maxScale))
      ofParts? (negative && q != 0) q maxScale
  else fit? negative m s

/-- The product. -/
def mul (a b : Decimal) : Checked Decimal :=
  if a.isZero || b.isZero then .exact zero
  else
    outcome .multiplicationOverflow (·.Represents (a.signed * b.signed) (a.scale + b.scale))
      (mulNonzero? a b)

/-! ## Quotients

Long division in steps of up to nine digits. A step multiplies the quotient so far and the remainder
by a power of ten and divides again; it ends when the remainder is zero or no further digit fits. -/

/-- A quotient under construction, standing for `quotient / 10^scale`. -/
structure Quotient where
  /-- The digits so far. -/
  quotient : Nat
  /-- Their scale, negative while the divisor has more places than the dividend. -/
  scale : Int
  /-- Whether division went beyond the digits of the dividend, so that trailing zeros may go. -/
  extended : Bool

/-- Gives up the last digit of a quotient that has outgrown the limit. The digit rounds to nearest;
of a tie the remainder (`sticky`) decides, or else the even neighbour. -/
def Quotient.shorten? (q : Quotient) (sticky : Bool) : Option Quotient :=
  let d := q.quotient / 10
  let e := q.quotient % 10
  if q.scale ≤ 0 then none
  else
    let up := 5 < e ∨ (e = 5 ∧ (sticky = true ∨ d % 2 = 1))
    some { q with quotient := if up then d + 1 else d, scale := q.scale - 1 }

/-- The largest `p ≤ most` with `q * 10^p < limit`. -/
def digitsThatFit (q : Nat) : Nat → Nat
  | 0 => 0
  | p + 1 => if q * tenPow (p + 1) < limit then p + 1 else digitsThatFit q p

theorem digitsThatFit_le (q most : Nat) : digitsThatFit q most ≤ most := by
  induction most with
  | zero => exact Nat.le_refl 0
  | succ p ih => simp only [digitsThatFit]; split <;> omega

/-- How many digits the next step appends: those that bring an exact quotient to an integer, or as
many of the rest as fit. -/
def Quotient.stepSize (q : Quotient) (remainder : Nat) : Nat :=
  if remainder = 0 then min 9 (-q.scale).toNat
  else digitsThatFit q.quotient (min 9 (maxScale - q.scale).toNat)

/-- A step that appends digits starts below the largest scale. -/
theorem Quotient.scale_lt_of_stepSize_ne_zero {q : Quotient} {remainder : Nat}
    (h : q.stepSize remainder ≠ 0) : q.scale < maxScale := by
  unfold stepSize at h
  have := digitsThatFit_le q.quotient (min 9 (maxScale - q.scale).toNat)
  have : maxScale = 28 := rfl
  split at h <;> omega

/-- Rounds a quotient to which no digit can be appended, given the remainder. -/
def Quotient.roundLast? (q : Quotient) (remainder divisor : Nat) : Option Quotient :=
  if divisor < 2 * remainder ∨ (2 * remainder = divisor ∧ q.quotient % 2 = 1) then
    let up := { q with quotient := q.quotient + 1 }
    if up.quotient < limit then some up else up.shorten? true
  else some q

/-- Continues a division by `divisor` until it is exact or full; `none` when the quotient is too
large. Each step raises the scale, which stops at `maxScale`. -/
def Quotient.extend? (divisor : Nat) (q : Quotient) (remainder : Nat) : Option Quotient :=
  if remainder = 0 ∧ 0 ≤ q.scale then some q
  else
    let p := q.stepSize remainder
    let extended := q.extended || remainder != 0
    if remainder ≠ 0 ∧ q.scale ≠ maxScale ∧ p < 9 ∧ p + q.scale < 0 then none
    else if _ : p = 0 then { q with extended }.roundLast? remainder divisor
    else if limit ≤ q.quotient * tenPow p then none
    else
      let r := remainder * tenPow p
      let next : Quotient := ⟨q.quotient * tenPow p + r / divisor, q.scale + p, extended⟩
      if next.quotient < limit then next.extend? divisor (r % divisor)
      else next.shorten? (r % divisor != 0)
termination_by (maxScale - q.scale).toNat
decreasing_by
  have := q.scale_lt_of_stepSize_ne_zero ‹_›
  omega

/-- Drops trailing zeros eight at a time. -/
def stripEight (q s : Nat) : Nat × Nat :=
  if q % wordLimit = 0 ∧ 8 ≤ s ∧ q % tenPow 8 = 0 then stripEight (q / tenPow 8) (s - 8) else (q, s)
termination_by s

/-- Drops `n` trailing zeros if the coefficient has them and the scale allows it. -/
def stripOnce (n : Nat) (q : Nat × Nat) : Nat × Nat :=
  if q.1 % tenPow n = 0 ∧ n ≤ q.2 then (q.1 / tenPow n, q.2 - n) else q

/-- Drops trailing zeros after the point: by eights while the coefficient is a multiple of `2^32`,
then once each by four, two and one. -/
def stripZeros (q s : Nat) : Nat × Nat :=
  stripOnce 1 (stripOnce 2 (stripOnce 4 (stripEight q s)))

/-- The quotient of two numbers other than zero. -/
def divNonzero? (a b : Decimal) : Option Decimal := do
  let start : Quotient := ⟨a.coefficient / b.coefficient, (a.scale : Int) - b.scale, false⟩
  let full ← start.extend? b.coefficient (a.coefficient % b.coefficient)
  let (q, s) :=
    if full.extended then stripZeros full.quotient full.scale.toNat
    else (full.quotient, full.scale.toNat)
  ofParts? ((a.negative != b.negative) && q != 0) q s

/-- The quotient, to as many places as it needs and a decimal has. It is exact if its product with
the divisor is the dividend. -/
def div (a b : Decimal) : Checked Decimal :=
  if b.isZero then .error .divisionByZero
  else if a.isZero then .exact zero
  else
    outcome .divisionOverflow (fun c => a.Represents (c.signed * b.signed) (c.scale + b.scale))
      (divNonzero? a b)

end DoubleEntry.Decimal
