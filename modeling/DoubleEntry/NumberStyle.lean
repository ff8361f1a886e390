import DoubleEntry.Decimal.Rounding
import DoubleEntry.Amount

/-!
# Number style

Reports show all numbers of a currency at the precision that is most common among those written in
it, so that `10.5 USD` and `3.25 USD` come out as `10.50` and `3.25`.

* `NumberStyle.record`: takes note of a number that was written.
* `NumberStyle.precision?`: the most common scale, of equally common ones the largest.
* `NumberStyle.format`: a number at that precision, with thousands separators if they are wanted.
-/

namespace DoubleEntry

/-- How numbers of each currency were written, and how to show them. -/
structure NumberStyle where
  /-- Whether to separate groups of three digits before the point. -/
  commas : Bool := false
  /-- The currency and scale of every number recorded. -/
  written : List (Currency × Nat) := []
deriving DecidableEq, Repr

namespace NumberStyle

/-- Takes note of an amount that was written. -/
def record (style : NumberStyle) (a : Amount) : NumberStyle :=
  { style with written := (a.currency, a.number.scale) :: style.written }

/-- How often a scale was recorded for a currency. -/
def count (style : NumberStyle) (currency : Currency) (scale : Nat) : Nat :=
  style.written.count (currency, scale)

/-- The scale recorded most often for a currency, the largest one among equals. -/
def precision? (style : NumberStyle) (currency : Currency) : Option Nat :=
  (List.range (Decimal.maxScale + 1)).foldl
    (fun best scale =>
      let n := style.count currency scale
      if 0 < n ∧ ∀ b ∈ best, style.count currency b ≤ n then some scale else best)
    none

/-- Puts a comma before every third digit, counted from the end. -/
def groupDigits : List Char → List Char
  | [] => []
  | c :: cs =>
    if cs.length % 3 = 0 ∧ cs ≠ [] then c :: ',' :: groupDigits cs else c :: groupDigits cs

/-- Groups the digits before the point of a number's text. -/
def insertCommas (cs : List Char) : List Char :=
  let (sign, digits) :=
    match cs with
    | '-' :: rest => (['-'], rest)
    | _ => ([], cs)
  sign ++ groupDigits (digits.takeWhile (· ≠ '.')) ++ digits.dropWhile (· ≠ '.')

/-- The number rounded, or padded with zeros, to the precision of the currency. -/
def atPrecision (style : NumberStyle) (number : Decimal) (currency : Currency) : Decimal :=
  match style.precision? currency with
  | some places => (number.roundToPlaces places).padToPlaces places
  | none => number

/-- The text of a number in a currency. A currency of which nothing was recorded shows a number's
own digits. -/
def format (style : NumberStyle) (number : Decimal) (currency : Currency) : String :=
  let shown := style.atPrecision number currency
  if style.commas then String.ofList (insertCommas shown.toChars) else shown.text

end NumberStyle

end DoubleEntry
