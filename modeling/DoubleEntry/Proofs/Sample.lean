import DoubleEntry.Directive
import DoubleEntry.Proofs.Decimal.Value

/-!
# Sample ledgers

Short forms for the values of which small ledgers are made: numbers, days after New Year, plain
postings and dated directives.
-/

namespace DoubleEntry

namespace Decimal

/-- A natural number below the limit, as a decimal without places. -/
def ofNat (n : Nat) : Decimal :=
  ⟨false, n % limit, 0, Nat.mod_lt n (by decide), Nat.zero_le _⟩

/-- The number that a text writes, or zero if it writes none. -/
def written (s : String) : Decimal := (ofChars? s.toList).getD .zero

theorem value_ofNat {n : Nat} (h : n < limit) : (ofNat n).value = n := by
  simp [value, signed, ofNat, Nat.mod_eq_of_lt h]

end Decimal

/-- A day in January 2024, the first of which is day `0`. -/
def Date.afterNewYear (n : Nat) : Date where
  year := 2024
  month := 1
  day := n % 31 + 1
  day_pos := Nat.succ_pos _
  day_le := Nat.mod_lt n (by decide)

/-- A posting that moves some units and says nothing else. -/
def Posting.plain (account : Account) (n : Decimal) (currency : Currency) : Posting where
  account
  units := some (.complete ⟨n, currency⟩)

/-- A directive without metadata. -/
def Directive.Body.on (body : Directive.Body) (day : Nat) : Directive where
  date := Date.afterNewYear day
  body

/-- What a computation on a sample gives has a property, if running it shows so. -/
theorem exists_of_any {ε α : Type} {x : Option (Except ε α)} {p : α → Prop} [DecidablePred p]
    (h : (x.bind (·.toOption)).any p) : ∃ a, x = some (.ok a) ∧ p a := by
  match x, h with
  | some (.ok a), h => exact ⟨a, rfl, by simpa [Except.toOption] using h⟩

/-- The same for a computation on a sample in which nothing rounds. -/
theorem exists_exact_of_any {ε α : Type} {x : Checked (Except ε α)} {p : α → Prop}
    [DecidablePred p] (h : ∃ r, x = .exact r ∧ r.toOption.any p) :
    ∃ a, x = .exact (.ok a) ∧ p a := by
  obtain ⟨r, hr, h⟩ := h
  cases r with
  | error e => simp [Except.toOption] at h
  | ok a => exact ⟨a, hr, by simpa [Except.toOption] using h⟩

end DoubleEntry
