import DoubleEntry.Decimal.Basic

/-!
# The text of a decimal

A decimal is written with all its places and at least one digit before the point, a minus sign in
front of a negative one (`-0.00`). It is read back from the same form; a trailing point is allowed.

* `Decimal.toChars`, `Decimal.text`: writing.
* `Decimal.ofChars?`, `Decimal.ofText?`: reading. Digits after the point that do not fit any more
  round what was read; digits before it make the text unreadable.
-/

namespace DoubleEntry

/-- The value of an ASCII digit. -/
def digit? (c : Char) : Option Nat :=
  if '0' ≤ c ∧ c ≤ '9' then some (c.toNat - '0'.toNat) else none

/-- The last `k` digits of `n`, with zeros in front if there are fewer. -/
def fixedDigits : Nat → Nat → List Char
  | 0, _ => []
  | k + 1, n => fixedDigits k (n / 10) ++ [Nat.digitChar (n % 10)]

namespace Decimal

/-- The characters of the number's text. -/
def toChars (a : Decimal) : List Char :=
  let sign := if a.negative then ['-'] else []
  let whole := Nat.toDigits 10 (a.coefficient / tenPow a.scale)
  let fraction := if a.scale = 0 then [] else '.' :: fixedDigits a.scale a.coefficient
  sign ++ whole ++ fraction

/-- The number's text: `12.50`, `-0.00`, `0`. -/
def text (a : Decimal) : String := String.ofList a.toChars

instance : ToString Decimal := ⟨text⟩

/-- Reads digits up to a character that is none, starting from `m`; `none` if the number outgrows
the coefficients. -/
def readWhole (m : Nat) : List Char → Option (Nat × List Char)
  | [] => some (m, [])
  | c :: cs =>
    match digit? c with
    | none => some (m, c :: cs)
    | some d => if m * 10 + d < limit then readWhole (m * 10 + d) cs else none

/-- Adds one to a coefficient of `s` places; if it reaches the limit, one place is dropped. -/
def roundUp (m s : Nat) : Option (Nat × Nat) :=
  if m + 1 < limit then some (m + 1, s)
  else if s = 0 then none
  else some ((m + 5) / 10, s - 1)

/-- Reads the digits after the point onto a coefficient `m` that has `s` places. The first digit
that does not fit rounds the number, and the rest is passed over. -/
def readFraction (m s : Nat) : List Char → Option (Nat × Nat)
  | [] => some (m, s)
  | c :: cs =>
    match digit? c with
    | none => none
    | some d =>
      if s < maxScale ∧ m * 10 + d < limit then readFraction (m * 10 + d) (s + 1) cs
      else if 5 ≤ d then roundUp m s
      else some (m, s)

/-- Reads a number without its sign as coefficient and scale. -/
def readMagnitude (cs : List Char) : Option (Nat × Nat) :=
  match cs with
  | [] => none
  | c :: _ =>
    if (digit? c).isNone then none
    else
      match readWhole 0 cs with
      | some (m, []) => some (m, 0)
      | some (m, '.' :: fraction) => readFraction m 0 fraction
      | _ => none

/-- The number with this text. A zero has no sign, whatever was written. -/
def ofChars? (cs : List Char) : Option Decimal :=
  let (negative, magnitude) :=
    match cs with
    | '-' :: rest => (true, rest)
    | _ => (false, cs)
  match readMagnitude magnitude with
  | some (m, s) => ofParts? (negative && m != 0) m s
  | none => none

/-- The number with this text. -/
def ofText? (s : String) : Option Decimal := ofChars? s.toList

end Decimal

end DoubleEntry
