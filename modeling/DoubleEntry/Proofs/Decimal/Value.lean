import Mathlib.Algebra.BigOperators.Group.List.Basic
import Mathlib.Algebra.Order.Field.Rat
import Mathlib.Data.Rat.Cast.Order
import Mathlib.Tactic.FieldSimp
import Mathlib.Tactic.Linarith
import Mathlib.Tactic.Positivity
import Mathlib.Tactic.Ring
import DoubleEntry.Amount

/-!
# The value of a decimal

A decimal stands for the rational number `a.value`. Comparison is comparison of values, and an exact
operation is the operation on values, whatever scale its result has.

* `le_iff`, `equals_iff`: comparison by cross-multiplication is comparison of values.
* `value_add`, `value_sub`, `value_mul`, `value_div`: exact operations on values.
* `value_sum`: an exact sum is the sum of the values, in any order of the terms.
-/

namespace DoubleEntry

namespace Decimal

/-- The number that a decimal stands for. -/
def value (a : Decimal) : ℚ := a.signed / 10 ^ a.scale

theorem tenPow_cast (n : Nat) : ((tenPow n : Nat) : ℚ) = 10 ^ n := by
  simp [tenPow]

theorem ten_pow_ne_zero (n : Nat) : (10 : ℚ) ^ n ≠ 0 := by positivity

/-! ## Comparison -/

/-- A decimal stands for a number of units if that is its value. -/
theorem represents_iff {a : Decimal} {m : Int} {s : Nat} :
    a.Represents m s ↔ a.value = m / 10 ^ s := by
  unfold Represents value
  rw [div_eq_div_iff (ten_pow_ne_zero _) (ten_pow_ne_zero _), ← tenPow_cast, ← tenPow_cast]
  exact_mod_cast Iff.rfl

/-- Decimals are equal by their values, however many places they are written with. -/
theorem equals_iff {a b : Decimal} : a.Equals b ↔ a.value = b.value :=
  represents_iff

/-- Comparing decimals compares their values. -/
theorem le_iff {a b : Decimal} : a ≤ b ↔ a.value ≤ b.value := by
  show a.signed * tenPow b.scale ≤ b.signed * tenPow a.scale ↔ _
  unfold value
  rw [div_le_div_iff₀ (by positivity) (by positivity), ← tenPow_cast, ← tenPow_cast]
  exact_mod_cast Iff.rfl

theorem lt_iff {a b : Decimal} : a < b ↔ a.value < b.value := by
  show a.signed * tenPow b.scale < b.signed * tenPow a.scale ↔ _
  unfold value
  rw [div_lt_div_iff₀ (by positivity) (by positivity), ← tenPow_cast, ← tenPow_cast]
  exact_mod_cast Iff.rfl

/-- A zero is one with whatever places and sign. -/
theorem isZero_iff {a : Decimal} : a.isZero ↔ a.value = 0 := by
  unfold isZero value signed
  rw [div_eq_zero_iff, or_iff_left (ten_pow_ne_zero _), Int.cast_eq_zero]
  split <;> simp

/-! ## Signs -/

@[simp] theorem value_zero : zero.value = 0 := by simp [value, signed, zero]

@[simp] theorem value_neg (a : Decimal) : a.neg.value = -a.value := by
  unfold value signed neg
  cases a.negative <;> simp [neg_div]

@[simp] theorem value_abs (a : Decimal) : a.abs.value = |a.value| := by
  unfold value signed abs
  rw [abs_div, abs_of_pos (show (0 : ℚ) < 10 ^ a.scale by positivity)]
  cases a.negative <;> simp

/-! ## Operations -/

/-- An operation calls its result exact only if it is. -/
theorem outcome_eq_exact {e : ArithmeticError} {isExact : Decimal → Bool} {r : Option Decimal}
    {c : Decimal} (h : outcome e isExact r = .exact c) : isExact c := by
  cases r with
  | none => simp [outcome] at h
  | some a =>
    simp only [outcome] at h
    split at h
    · simp_all
    · simp at h

/-- The exact sum, in units of the operand with more places. -/
theorem exactSum_div (a b : Decimal) :
    (exactSum a b : ℚ) / 10 ^ max a.scale b.scale = a.value + b.value := by
  have split (x s : Nat) (h : x ≤ s) : (10 : ℚ) ^ (s - x) / 10 ^ s = 1 / 10 ^ x := by
    rw [pow_sub₀ _ (by norm_num) h]
    field_simp
  have ha := split a.scale _ (le_max_left a.scale b.scale)
  have hb := split b.scale _ (le_max_right a.scale b.scale)
  unfold exactSum value
  push_cast [tenPow_cast]
  rw [add_div, mul_div_assoc, mul_div_assoc, ha, hb]
  ring

/-- A sum that is not rounded is the sum of the values. -/
theorem value_add {a b c : Decimal} (h : a.add b = .exact c) : c.value = a.value + b.value := by
  unfold add at h
  split at h
  · rename_i ha
    obtain rfl : b = c := by simpa using h
    simp [isZero_iff.1 ha]
  · split at h
    · rename_i hb
      obtain rfl : a = c := by simpa using h
      simp [isZero_iff.1 hb]
    · have hc : c.Represents (exactSum a b) (max a.scale b.scale) := by
        simpa using outcome_eq_exact h
      rw [← exactSum_div]
      exact represents_iff.1 hc

theorem value_sub {a b c : Decimal} (h : a.sub b = .exact c) : c.value = a.value - b.value := by
  unfold sub at h
  split at h
  · rename_i hb
    have hb := isZero_iff.1 hb
    obtain rfl : (if a.isZero then b else a) = c := by simpa using h
    split
    · rename_i ha
      simp [isZero_iff.1 ha, hb]
    · simp [hb]
  · split at h
    · rename_i ha
      obtain rfl : b.neg = c := by simpa using h
      simp [isZero_iff.1 ha]
    · have hc : c.Represents (exactSum a b.neg) (max a.scale b.scale) := by
        simpa using outcome_eq_exact h
      rw [sub_eq_add_neg, ← value_neg, ← exactSum_div]
      exact represents_iff.1 hc

theorem value_mul {a b c : Decimal} (h : a.mul b = .exact c) : c.value = a.value * b.value := by
  unfold mul at h
  split at h
  · rename_i hz
    obtain rfl : zero = c := by simpa using h
    rcases Bool.or_eq_true_iff.1 hz with ha | hb
    · simp [isZero_iff.1 ha]
    · simp [isZero_iff.1 hb]
  · have hc : c.Represents (a.signed * b.signed) (a.scale + b.scale) := by
      simpa using outcome_eq_exact h
    rw [represents_iff.1 hc]
    unfold value
    push_cast
    rw [pow_add, div_mul_div_comm]

theorem value_div {a b c : Decimal} (h : a.div b = .exact c) : c.value = a.value / b.value := by
  unfold div at h
  split at h
  · simp at h
  · rename_i hb
    have hb : b.value ≠ 0 := fun hb' => hb (isZero_iff.2 hb')
    split at h
    · rename_i ha
      obtain rfl : zero = c := by simpa using h
      simp [isZero_iff.1 ha]
    · have hc : a.Represents (c.signed * b.signed) (c.scale + b.scale) := by
        simpa using outcome_eq_exact h
      rw [eq_div_iff hb, represents_iff.1 hc]
      unfold value
      push_cast
      rw [pow_add, div_mul_div_comm]

/-- An exact left-to-right sum. -/
theorem value_foldlM_add {l : List Decimal} {a t : Decimal} (h : l.foldlM add a = .exact t) :
    t.value = a.value + (l.map value).sum := by
  induction l generalizing a with
  | nil =>
    obtain rfl : a = t := by simpa using h
    simp
  | cons b l ih =>
    rw [List.foldlM_cons, Checked.bind_eq_exact] at h
    obtain ⟨c, hc, ht⟩ := h
    rw [ih ht, value_add hc, List.map_cons, List.sum_cons, add_assoc]

/-- A sum over a list that is never rounded is the sum of the values. -/
theorem value_sum {l : List Decimal} {t : Decimal} (h : sum l = .exact t) :
    t.value = (l.map value).sum := by
  simpa using value_foldlM_add h

/-- Half a unit at the last of some places. -/
theorem value_halfUnit {s : Nat} {t : Decimal} (h : (halfUnit s).value? = some t) :
    t.value = 5 / 10 ^ (s + 1) := by
  unfold halfUnit ofParts? at h
  split at h
  · rename_i u hu
    split at hu
    · obtain rfl : u = t := by simpa using h
      obtain rfl := Option.some.inj hu
      simp [value, signed]
    · simp at hu
  · simp at h

end Decimal

end DoubleEntry
