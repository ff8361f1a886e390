import DoubleEntry.Proofs.Decimal.Nearest

/-!
# Rounding to places

To show a number with so many places it is rounded to the nearest number that has them, of two the
one whose last digit is even, or zeros are appended to it.

* `IsRoundedTo`: a number rounded to so many places, and `IsRoundedTo.error` how far it is off.
* `Decimal.isRoundedTo_roundToPlaces`: what `roundToPlaces` computes.
* `Decimal.value_padToPlaces`: zeros at the end do not matter.
-/

namespace DoubleEntry

/-- `y` is `x` rounded to so many places, a tie going to the even digit. -/
def IsRoundedTo (places : Nat) (x y : ℚ) : Prop :=
  ∃ q : Nat, IsNearestEven (|x| * 10 ^ places) q ∧
    y = if x < 0 then -((q : ℚ) / 10 ^ places) else q / 10 ^ places

theorem IsRoundedTo.unique {places : Nat} {x y z : ℚ} (hy : IsRoundedTo places x y)
    (hz : IsRoundedTo places x z) : y = z := by
  obtain ⟨p, hp, rfl⟩ := hy
  obtain ⟨q, hq, rfl⟩ := hz
  rw [hp.unique hq]

/-- A rounded number is off by half a unit of the last place at most. -/
theorem IsRoundedTo.error {places : Nat} {x y : ℚ} (h : IsRoundedTo places x y) :
    |y - x| ≤ 1 / 2 / 10 ^ places := by
  obtain ⟨q, hq, rfl⟩ := h
  have hpow : (0 : ℚ) < 10 ^ places := by positivity
  have hsign : |(if x < 0 then -((q : ℚ) / 10 ^ places) else q / 10 ^ places) - x| =
      |(|x|) - (q : ℚ) / 10 ^ places| := by
    split
    · next hx =>
      rw [abs_of_neg hx]
      congr 1
      ring
    · next hx => rw [abs_of_nonneg (not_lt.1 hx), abs_sub_comm]
  have hscaled : (|x|) - (q : ℚ) / 10 ^ places = ((|x|) * 10 ^ places - q) / 10 ^ places := by
    rw [sub_div, mul_div_cancel_right₀ _ hpow.ne']
  rw [hsign, hscaled, abs_div, abs_of_pos hpow]
  exact div_le_div_of_nonneg_right hq.near hpow.le

namespace Decimal

variable {a : Decimal} {places : Nat}

/-- A number without further places is its own rounding. -/
theorem isRoundedTo_value (h : a.scale ≤ places) : IsRoundedTo places a.value a.value := by
  have hdigits : |a.value| * 10 ^ places = (a.coefficient * 10 ^ (places - a.scale) : Nat) := by
    rw [abs_value, div_mul_eq_mul_div, div_eq_iff (ten_pow_ne_zero _)]
    push_cast
    rw [mul_assoc, ← pow_add, Nat.sub_add_cancel h]
  refine ⟨_, hdigits ▸ IsNearestEven.natCast _, ?_⟩
  rw [← hdigits, mul_div_cancel_right₀ _ (ten_pow_ne_zero _)]
  split
  · next hneg => rw [abs_of_neg hneg, neg_neg]
  · next hneg => rw [abs_of_nonneg (not_lt.1 hneg)]

theorem value_neg_iff (h : a.isZero = false) : a.value < 0 ↔ a.negative := by
  have hsize : 0 < a.size := abs_pos.2 fun hzero => by simp [isZero_iff.2 hzero] at h
  rw [value_eq]
  cases a.negative <;> simp [hsize, hsize.le]

/-- The digits without those that are dropped, rounded. -/
theorem isNearestEven_roundToPlaces (h : places < a.scale) :
    IsNearestEven (|a.value| * 10 ^ places)
      (divHalfEven a.coefficient (tenPow (a.scale - places))) := by
  have hsize : |a.value| * 10 ^ places = a.coefficient / (tenPow (a.scale - places) : Nat) := by
    rw [abs_value, tenPow_cast, div_mul_eq_mul_div,
      div_eq_div_iff (ten_pow_ne_zero _) (ten_pow_ne_zero _), mul_assoc, ← pow_add,
      Nat.add_sub_cancel' h.le]
  rw [hsize]
  exact divHalfEven_isNearestEven _ (Nat.pow_pos (by decide))

theorem isRoundedTo_roundToPlaces (a : Decimal) (places : Nat) :
    IsRoundedTo places a.value (a.roundToPlaces places).value := by
  unfold roundToPlaces
  split
  · next hle => exact isRoundedTo_value hle
  next hlt =>
  have hlt : places < a.scale := not_le.1 hlt
  have hnearest := isNearestEven_roundToPlaces hlt
  simp only
  generalize divHalfEven a.coefficient (tenPow (a.scale - places)) = q at hnearest ⊢
  -- Fewer digits are not more than all of them, so they fit.
  have hle : q ≤ a.coefficient := by
    refine hnearest.mono (.natCast _) ?_
    rw [abs_value, div_mul_eq_mul_div, div_le_iff₀ (by positivity)]
    exact mul_le_mul_of_nonneg_left (pow_le_pow_right₀ (by norm_num) hlt.le) (Nat.cast_nonneg _)
  have hfits : q < limit ∧ places ≤ maxScale :=
    ⟨hle.trans_lt a.coefficient_lt, hlt.le.trans a.scale_le⟩
  refine ⟨q, hnearest, ?_⟩
  rw [ofParts?, dif_pos hfits, Option.getD_some, value_eq, size, abs_value]
  rcases Nat.eq_zero_or_pos q with rfl | hq
  · simp
  · have hzero : a.isZero = false := by
      simpa [isZero] using (hq.trans_le hle).ne'
    have hsign : (a.negative && (a.isZero || q != 0)) = a.negative := by simp [hq.ne']
    simp only [hsign, value_neg_iff hzero]

/-- Zeros at the end do not change a number. -/
theorem value_padToPlaces (a : Decimal) (places : Nat) :
    (a.padToPlaces places).value = a.value := by
  rw [padToPlaces]
  generalize places - a.scale = n
  induction n generalizing a with
  | zero => rfl
  | succ n ih =>
    rw [padToPlaces.go]
    split
    · next b hb =>
      obtain ⟨hnegative, hcoefficient, hscale⟩ := ofParts?_eq_some hb
      have hsize : b.size = a.size := by
        rw [size, size, abs_value, abs_value, hcoefficient, hscale, pow_succ]
        push_cast
        rw [mul_div_mul_right _ _ (by norm_num)]
      rw [ih, value_eq, value_eq a, hnegative, hsize]
    · rfl

end Decimal

end DoubleEntry
