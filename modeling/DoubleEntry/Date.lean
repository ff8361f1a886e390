import DoubleEntry.Decimal.Text

/-!
# Calendar dates

Days of the Gregorian calendar in the years 0 to 9999, ordered by time.

* `Date.ofParts?`: the only check that a day exists.
* `Date.text`: the form `YYYY-MM-DD`, always ten characters.
* `Date.ofChars?`: reads a year of four digits, and a month and a day of one or two.
-/

namespace DoubleEntry

namespace Date

/-- Whether the year has a 29th of February. -/
def isLeapYear (year : Nat) : Bool :=
  year % 4 == 0 && (year % 100 != 0 || year % 400 == 0)

/-- The number of days of a month, `0` if there is no such month. -/
def daysInMonth (year month : Nat) : Nat :=
  match month with
  | 1 | 3 | 5 | 7 | 8 | 10 | 12 => 31
  | 4 | 6 | 9 | 11 => 30
  | 2 => if isLeapYear year then 29 else 28
  | _ => 0

end Date

/-- A day of the calendar. -/
structure Date where
  /-- The year, in four digits. -/
  year : Nat
  /-- The month, from 1. -/
  month : Nat
  /-- The day of the month, from 1. -/
  day : Nat
  year_le : year ≤ 9999 := by decide
  day_pos : 1 ≤ day := by decide
  day_le : day ≤ Date.daysInMonth year month := by decide
deriving DecidableEq, Repr

namespace Date

/-- The day with these parts, if it exists. -/
def ofParts? (year month day : Nat) : Option Date :=
  if h : year ≤ 9999 ∧ 1 ≤ day ∧ day ≤ daysInMonth year month then
    some ⟨year, month, day, h.1, h.2.1, h.2.2⟩
  else none

/-- Days are counted by year, then month, then day, so this number orders them by time. -/
def ordinal (d : Date) : Nat := (d.year * 100 + d.month) * 100 + d.day

instance : LE Date := ⟨fun a b => a.ordinal ≤ b.ordinal⟩

instance : LT Date := ⟨fun a b => a.ordinal < b.ordinal⟩

instance (a b : Date) : Decidable (a ≤ b) := inferInstanceAs (Decidable (a.ordinal ≤ b.ordinal))

instance (a b : Date) : Decidable (a < b) := inferInstanceAs (Decidable (a.ordinal < b.ordinal))

/-- The characters of `YYYY-MM-DD`. -/
def toChars (d : Date) : List Char :=
  fixedDigits 4 d.year ++ '-' :: fixedDigits 2 d.month ++ '-' :: fixedDigits 2 d.day

/-- The date as `YYYY-MM-DD`. -/
def text (d : Date) : String := String.ofList d.toChars

instance : ToString Date := ⟨text⟩

/-- The number written by a nonempty list of ASCII digits. -/
def natOfDigits? (cs : List Char) : Option Nat :=
  match cs with
  | [] => none
  | _ => cs.foldlM (fun n c => (digit? c).map (n * 10 + ·)) 0

/-- Reads a date whose parts stand between hyphens or slashes: a year of four digits, a month and a
day of one or two. -/
def ofChars? (cs : List Char) : Option Date :=
  match (cs.map fun c => if c = '/' then '-' else c).splitOn '-' with
  | [year, month, day] =>
    if year.length = 4 ∧ month.length ≤ 2 ∧ day.length ≤ 2 then do
      ofParts? (← natOfDigits? year) (← natOfDigits? month) (← natOfDigits? day)
    else none
  | _ => none

/-- Reads a date, as `ofChars?` does. -/
def ofText? (s : String) : Option Date := ofChars? s.toList

end Date

end DoubleEntry
