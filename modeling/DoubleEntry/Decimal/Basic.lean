import DoubleEntry.Checked

/-!
# Decimals

A `Decimal` is a sign, a coefficient below `2^96` and a scale of at most 28 places. It stands for
`± coefficient / 10^scale`. The scale is part of the value's text (`1.0` and `1.00` are different
decimals), and the sign is kept on zero as well (`0` and `-0`), but comparison is numeric and sees
neither.

* `Decimal.signed`: the coefficient with its sign, the integer that comparison and addition work on.
* `Decimal.ofParts?`: the only check of the two bounds.
* `≤` and `<`: the numeric order, by cross-multiplying the scales.
-/

namespace DoubleEntry

namespace Decimal

/-- A power of ten. -/
def tenPow (n : Nat) : Nat := Nat.pow 10 n

/-- Coefficients are below this bound, `2^96`. -/
def limit : Nat := Nat.pow 2 96

/-- The largest number of places. -/
def maxScale : Nat := 28

end Decimal

namespace ArithmeticError

/-- The text shown for an arithmetic failure. -/
def message : ArithmeticError → String
  | additionOverflow => "Addition overflowed"
  | subtractionOverflow => "Subtraction overflowed"
  | multiplicationOverflow => "Multiplication overflowed"
  | divisionOverflow => "Division overflowed"
  | divisionByZero => "Division by zero"
  | scaleTooLarge scale =>
    s!"Scale exceeds the maximum precision allowed: {scale} > {Decimal.maxScale}"

end ArithmeticError

/-- A decimal number with its sign and the number of places it is written with. -/
@[ext] structure Decimal where
  /-- Whether the number carries a minus sign. -/
  negative : Bool
  /-- The digits, read as one integer. -/
  coefficient : Nat
  /-- How many of the digits stand after the point. -/
  scale : Nat
  coefficient_lt : coefficient < Decimal.limit := by decide
  scale_le : scale ≤ Decimal.maxScale := by decide
deriving DecidableEq, Repr

namespace Decimal

/-- The decimal with these parts, if they are within the bounds. -/
def ofParts? (negative : Bool) (coefficient scale : Nat) : Option Decimal :=
  if h : coefficient < limit ∧ scale ≤ maxScale then
    some ⟨negative, coefficient, scale, h.1, h.2⟩
  else none

/-- Zero without places. -/
def zero : Decimal where
  negative := false
  coefficient := 0
  scale := 0

/-- One without places. -/
def one : Decimal where
  negative := false
  coefficient := 1
  scale := 0

instance : Inhabited Decimal := ⟨zero⟩

/-- The integer `n`, if it fits. -/
def ofNat? (n : Nat) : Option Decimal := ofParts? false n 0

/-- Whether the number is zero, with any sign and scale. -/
def isZero (a : Decimal) : Bool := a.coefficient == 0

/-- The coefficient with its sign. -/
def signed (a : Decimal) : Int := if a.negative then -a.coefficient else a.coefficient

/-- The same digits with the other sign, also for zero. -/
def neg (a : Decimal) : Decimal := { a with negative := !a.negative }

/-- The same digits without a minus sign. -/
def abs (a : Decimal) : Decimal := { a with negative := false }

/-- Numeric order: `a ≤ b` compares `a.signed / 10^a.scale` with `b.signed / 10^b.scale`. -/
instance : LE Decimal where
  le a b := a.signed * tenPow b.scale ≤ b.signed * tenPow a.scale

/-- Strict numeric order. -/
instance : LT Decimal where
  lt a b := a.signed * tenPow b.scale < b.signed * tenPow a.scale

instance (a b : Decimal) : Decidable (a ≤ b) :=
  inferInstanceAs (Decidable (a.signed * tenPow b.scale ≤ b.signed * tenPow a.scale))

instance (a b : Decimal) : Decidable (a < b) :=
  inferInstanceAs (Decidable (a.signed * tenPow b.scale < b.signed * tenPow a.scale))

/-- Numeric equality, blind to the scale and to the sign of zero. -/
def Equals (a b : Decimal) : Prop := a.signed * tenPow b.scale = b.signed * tenPow a.scale

instance (a b : Decimal) : Decidable (a.Equals b) :=
  inferInstanceAs (Decidable (a.signed * tenPow b.scale = b.signed * tenPow a.scale))

/-- The integer part of a number without a minus sign, if it is below `2^64`. -/
def toUInt64Value? (a : Decimal) : Option Nat :=
  let whole := a.coefficient / tenPow a.scale
  if a.negative || Nat.pow 2 64 ≤ whole then none else some whole

/-- Half a unit of the last of `scale` places, raised by one place: `5 / 10^(scale + 1)`. -/
def halfUnit (scale : Nat) : Checked Decimal :=
  match ofParts? false 5 (scale + 1) with
  | some tolerance => .exact tolerance
  | none => .error (.scaleTooLarge (scale + 1))

end Decimal

end DoubleEntry
