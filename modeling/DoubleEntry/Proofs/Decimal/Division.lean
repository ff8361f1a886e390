import DoubleEntry.Proofs.Decimal.Nearest

/-!
# Long division

Long division stops with the exact quotient rounded to the nearest decimal, as sums and products do.

* `Quotient.StandsFor`: the invariant of a division, the quotient so far and what it lacks.
* `Quotient.extend?_ends`: a division ends with the nearest number that fits.
* `div_isRounded`: division rounds the exact quotient.
* `add_congr`, `mul_congr`, `div_congr`: operands of the same value give results of the same value.
-/

namespace DoubleEntry

namespace Decimal

variable {a b c : Decimal} {x y f : ℚ} {d e k m n q s : Nat} {negative : Bool}

/-! ## Quotients -/

/-- More places than there is room for. -/
theorem exists_more (hx : (limit : ℚ) ≤ x * 10 ^ (k + 1)) :
    ∃ more, IsNearestEven (x * 10 ^ (k + 1)) more ∧ limit ≤ more := by
  obtain ⟨more, hmore⟩ := exists_isNearestEven ((Nat.cast_nonneg limit).trans hx)
  exact ⟨more, hmore, (IsNearestEven.natCast limit).mono hmore hx⟩

namespace Quotient

/-- The quotient and a part of a unit of its last place stand for a number. -/
def StandsFor (q : Quotient) (part x : ℚ) : Prop := x * 10 ^ q.scale = q.quotient + part

/-- What division of numbers without sign ends with: the exact quotient, rounded to what fits. -/
inductive Ends (x : ℚ) : Option Quotient → Prop
  | some {q : Quotient} {k : Nat} (hscale : q.scale = k) (hk : k ≤ maxScale)
    (hq : q.quotient < limit) (h : Rounds x (some (q.quotient / 10 ^ k))) : Ends x (some q)
  | none (h : Rounds x none) : Ends x none

variable {q : Quotient}

theorem StandsFor.of_scale_eq (h : q.StandsFor f x) (hk : q.scale = k) :
    x * 10 ^ k = q.quotient + f := by
  rw [StandsFor, hk, zpow_natCast] at h
  exact h

/-- A quotient of which not even the integer part fits. -/
theorem StandsFor.limit_le (h : q.StandsFor f x) (hf : 0 ≤ f) (hp : q.scale ≤ -n)
    (hq : limit ≤ q.quotient * 10 ^ n) : (limit : ℚ) ≤ x := by
  have hx : x = (q.quotient + f) * 10 ^ (-q.scale) := by
    rw [← h, mul_assoc, ← zpow_add₀ (by norm_num), add_neg_cancel, zpow_zero, mul_one]
  have hpow : (10 : ℚ) ^ n ≤ 10 ^ (-q.scale) := by
    rw [← zpow_natCast]
    exact zpow_le_zpow_right₀ (by norm_num) (by omega)
  calc (limit : ℚ) ≤ q.quotient * 10 ^ n := by exact_mod_cast hq
    _ ≤ (q.quotient + f) * 10 ^ n := by
      exact mul_le_mul_of_nonneg_right (le_add_of_nonneg_right hf) (by positivity)
    _ ≤ (q.quotient + f) * 10 ^ (-q.scale) := by
      exact mul_le_mul_of_nonneg_left hpow (by positivity)
    _ = x := hx.symm

/-- Of a tie in the last digit the remainder decides. -/
theorem roundsUp_iff {sticky : Bool} (hf₀ : 0 ≤ f) (hf₁ : f < 1) (hsticky : sticky ↔ 0 < f) :
    5 < e ∨ (e = 5 ∧ (sticky = true ∨ d % 2 = 1)) ↔
      1 / 2 < (e + f) / 10 ∨ ((e + f) / 10 = 1 / 2 ∧ d % 2 = 1) := by
  rw [hsticky, div_lt_div_iff₀ two_pos (by norm_num), div_eq_div_iff (by norm_num) two_ne_zero]
  rcases Nat.lt_trichotomy e 5 with hlt | rfl | hgt
  · have hlt' : (e : ℚ) ≤ 4 := by exact_mod_cast Nat.le_of_lt_succ hlt
    constructor
    · rintro (h | h) <;> omega
    · rintro (h | ⟨h, -⟩) <;> linarith
  · have hpart : (1 : ℚ) * 10 < ((5 : Nat) + f) * 2 ↔ 0 < f := by
      push_cast
      constructor <;> intro h <;> linarith
    have htie : ((5 : Nat) + f) * 2 = (1 : ℚ) * 10 ↔ f = 0 := by
      push_cast
      constructor <;> intro h <;> linarith
    rw [hpart, htie]
    rcases hf₀.eq_or_lt with rfl | hpos
    · simp
    · simp [hpos]
  · have hgt' : (6 : ℚ) ≤ e := by exact_mod_cast hgt
    have hup : (1 : ℚ) * 10 < (e + f) * 2 := by linarith
    exact iff_of_true (.inl hgt) (.inl hup)

/-- The last digit is given up. -/
theorem shorten?_ends {sticky : Bool} (h : q.StandsFor f x) (hf₀ : 0 ≤ f) (hf₁ : f < 1)
    (hsticky : sticky ↔ 0 < f) (hscale : q.scale ≤ maxScale) (hlarge : limit ≤ q.quotient)
    (hsmall : q.quotient < 2 * limit) : Ends x (q.shorten? sticky) := by
  unfold shorten?
  simp only
  split
  · next hs =>
    refine .none (.of_le (h.limit_le (n := 0) hf₀ ?_ ?_))
    · simpa using hs
    · simpa using hlarge
  next hs =>
  obtain ⟨k, hk⟩ : ∃ k : Nat, q.scale = k + 1 := ⟨(q.scale - 1).toNat, by omega⟩
  have hx : x * 10 ^ (k + 1) = q.quotient + f := h.of_scale_eq (by rw [hk]; rfl)
  have hdigits := Nat.div_add_mod q.quotient 10
  have he := Nat.mod_lt q.quotient (show 0 < 10 by decide)
  generalize q.quotient / 10 = d at hdigits ⊢
  generalize q.quotient % 10 = e at hdigits he ⊢
  have hcast : (q.quotient : ℚ) = 10 * d + e := by exact_mod_cast hdigits.symm
  have he' : (e : ℚ) ≤ 9 := by exact_mod_cast Nat.le_of_lt_succ he
  have hnearest : IsNearestEven (x * 10 ^ k)
      (if 5 < e ∨ (e = 5 ∧ (sticky = true ∨ d % 2 = 1)) then d + 1 else d) := by
    have hpart : x * 10 ^ k = d + (e + f) / 10 := by
      rw [pow_succ, ← mul_assoc, hcast] at hx
      linarith
    rw [hpart]
    convert IsNearestEven.of_part (p := d) (f := (e + f) / 10) (by positivity) (by linarith) using 1
    exact if_congr (roundsUp_iff hf₀ hf₁ hsticky) rfl rfl
  have hlt : (if 5 < e ∨ (e = 5 ∧ (sticky = true ∨ d % 2 = 1)) then d + 1 else d) < limit := by
    have hlimit : limit = 79228162514264337593543950336 := rfl
    split <;> omega
  have hmore : (limit : ℚ) ≤ x * 10 ^ (k + 1) := by
    have hlarge' : (limit : ℚ) ≤ q.quotient := by exact_mod_cast hlarge
    linarith
  refine .some (k := k) ?_ (by omega) hlt
    (.fits ⟨hnearest, by omega, hlt, .inr (exists_more hmore)⟩)
  show q.scale - 1 = k
  omega


/-- A quotient that is full is rounded by its remainder. -/
theorem roundLast?_ends (h : q.StandsFor (m / n) x) (hm : m < n) (hk : q.scale = k)
    (hmax : k ≤ maxScale) (hq : q.quotient < limit)
    (hfull : k = maxScale ∨ limit ≤ q.quotient * 10) : Ends x (q.roundLast? m n) := by
  have hx := h.of_scale_eq hk
  have hnearest := hx ▸ IsNearestEven.of_remainder q.quotient hm
  have hmost : k = maxScale ∨
      ∃ more, IsNearestEven (x * 10 ^ (k + 1)) more ∧ limit ≤ more := by
    refine hfull.imp_right fun hlarge => exists_more ?_
    have hlarge' : (limit : ℚ) ≤ q.quotient * 10 := by exact_mod_cast hlarge
    have hpart : (0 : ℚ) ≤ m / n := by positivity
    rw [pow_succ, ← mul_assoc, hx]
    linarith
  unfold roundLast?
  simp only
  split
  · next hup =>
    rw [if_pos hup] at hnearest
    split
    · next hlt => exact .some hk hmax hlt (.fits ⟨hnearest, hmax, hlt, hmost⟩)
    next hge =>
    -- Rounding has carried the digits to the limit.
    have hcarry : q.quotient + 1 = limit := by omega
    rw [hcarry] at hnearest ⊢
    unfold shorten?
    simp only
    split
    · next hs =>
      obtain rfl : k = 0 := by omega
      rw [pow_zero, mul_one] at hnearest
      exact .none (.tooLarge hnearest le_rfl)
    next hs =>
    obtain ⟨k, rfl⟩ : ∃ k', k = k' + 1 := ⟨k - 1, by omega⟩
    have hbelow : x * 10 ^ (k + 1) < limit := by
      have hpart : (m : ℚ) / n < 1 := by
        rw [div_lt_one (by exact_mod_cast Nat.zero_lt_of_lt hm)]
        exact_mod_cast hm
      have hcarry' : (q.quotient : ℚ) + 1 = limit := by exact_mod_cast hcarry
      rw [hx]
      linarith
    have hshorter := NearestAt.carry (by omega) hnearest hbelow
    have hup : 5 < limit % 10 := by decide
    rw [if_pos (.inl hup)]
    refine .some (k := k) ?_ hshorter.places_le hshorter.lt (.fits hshorter)
    show q.scale - 1 = k
    omega
  · next hdown =>
    rw [if_neg hdown] at hnearest
    exact .some hk hmax hq (.fits ⟨hnearest, hmax, hq, hmost⟩)

end Quotient

/-- So many more digits still fit. -/
theorem digitsThatFit_lt (q most : Nat) (h : digitsThatFit q most ≠ 0) :
    q * tenPow (digitsThatFit q most) < limit := by
  induction most with
  | zero => exact absurd rfl h
  | succ p ih =>
    rw [digitsThatFit] at h ⊢
    split
    · assumption
    · next hp =>
      rw [if_neg hp] at h
      exact ih h

/-- One more digit would not, if more were wanted. -/
theorem le_digitsThatFit (q most : Nat) (h : digitsThatFit q most < most) :
    limit ≤ q * tenPow (digitsThatFit q most + 1) := by
  induction most with
  | zero => exact absurd h (Nat.not_lt_zero _)
  | succ p ih =>
    rw [digitsThatFit] at h ⊢
    split
    · next hp =>
      rw [if_pos hp] at h
      exact absurd h (lt_irrefl _)
    · next hp =>
      rcases (digitsThatFit_le q p).eq_or_lt with heq | hlt
      · rw [heq]
        exact not_lt.1 hp
      · exact ih hlt

namespace Quotient

variable {q : Quotient}

/-- A step of long division. -/
theorem StandsFor.step (h : q.StandsFor (m / n) x) (hn : 0 < n) (p : Nat) (extended : Bool) :
    StandsFor ⟨q.quotient * tenPow p + m * tenPow p / n, q.scale + p, extended⟩
      ((m * tenPow p % n : Nat) / n) x := by
  have hdiv := natCast_div_eq (m * tenPow p) hn
  rw [Nat.cast_mul, tenPow_cast, mul_div_right_comm] at hdiv
  show x * 10 ^ (q.scale + p) = ((q.quotient * tenPow p + m * tenPow p / n : Nat) : ℚ) + _
  rw [zpow_add₀ (by norm_num), zpow_natCast, ← mul_assoc, h, add_mul, hdiv, Nat.cast_add,
    Nat.cast_mul, tenPow_cast, add_assoc]

/-- A step takes no more digits than there are places left. -/
theorem stepSize_le (hscale : q.scale ≤ maxScale) (h : ¬(m = 0 ∧ 0 ≤ q.scale)) :
    q.stepSize m ≤ 9 ∧ q.scale + q.stepSize m ≤ maxScale := by
  have hfit := digitsThatFit_le q.quotient (min 9 (maxScale - q.scale).toNat)
  unfold stepSize
  split
  · next hm =>
    have hneg : ¬0 ≤ q.scale := fun hnonneg => h ⟨hm, hnonneg⟩
    omega
  · omega

/-- Long division ends with the exact quotient, rounded to what fits. -/
theorem extend?_ends (hn : 0 < n) (h : q.StandsFor (m / n) x) (hm : m < n)
    (hscale : q.scale ≤ maxScale) (hq : q.quotient < limit) : Ends x (q.extend? n m) := by
  have hmax : maxScale = 28 := rfl
  fun_induction Quotient.extend? with
  | case1 q m hdone =>
    obtain ⟨rfl, hnonneg⟩ := hdone
    obtain ⟨k, hk⟩ := Int.eq_ofNat_of_zero_le hnonneg
    have hx := h.of_scale_eq hk
    rw [Nat.cast_zero, zero_div, add_zero] at hx
    have hx : x = q.quotient / 10 ^ k := (eq_div_iff (ten_pow_ne_zero k)).2 hx
    exact .some hk (by omega) hq (hx ▸ .of_eq (by omega) hq hx)
  | case2 q m _ p hlarge =>
    obtain ⟨hne, -, hp, hneg⟩ := hlarge
    have hstep : p = digitsThatFit q.quotient (min 9 (maxScale - q.scale).toNat) := if_neg hne
    have hmore := le_digitsThatFit q.quotient (min 9 (maxScale - q.scale).toNat) (by omega)
    rw [← hstep] at hmore
    exact .none (.of_le (h.limit_le (n := p + 1) (by positivity) (by omega) hmore))
  | case3 q m hmore p _ hopen hp =>
    -- An exact quotient gets here only with places, and then it is done.
    have hne : m ≠ 0 := by
      rintro rfl
      have hstep : p = min 9 (-q.scale).toNat := if_pos rfl
      omega
    have hstep : p = digitsThatFit q.quotient (min 9 (maxScale - q.scale).toNat) := if_neg hne
    obtain ⟨k, hk⟩ := Int.eq_ofNat_of_zero_le (show 0 ≤ q.scale by omega)
    refine roundLast?_ends (k := k) h hm hk (by omega) hq ?_
    refine (Nat.eq_or_lt_of_le (show k ≤ maxScale by omega)).imp_right fun hlt => ?_
    have hfull := le_digitsThatFit q.quotient (min 9 (maxScale - q.scale).toNat) (by omega)
    rwa [← hstep, hp] at hfull
  | case4 q m hmore p _ hp hlarge =>
    have hzero : m = 0 := by
      by_contra hne
      have hstep : p = digitsThatFit q.quotient (min 9 (maxScale - q.scale).toNat) := if_neg hne
      have hfits := digitsThatFit_lt q.quotient (min 9 (maxScale - q.scale).toNat) (hstep ▸ hp)
      rw [← hstep] at hfits
      exact absurd hlarge hfits.not_ge
    subst hzero
    have hstep : p = min 9 (-q.scale).toNat := if_pos rfl
    exact .none (.of_le (h.limit_le (n := p) (by positivity) (by omega) hlarge))
  | case5 q m hmore p extended _ hp _ r next hnext ih =>
    exact ih (h.step hn p extended) (Nat.mod_lt r hn) (stepSize_le hscale hmore).2 hnext
  | case6 q m hmore p extended _ hp hfits r next hnext =>
    obtain ⟨hnine, hplaces⟩ := stepSize_le hscale hmore
    have hdigits : r / n < tenPow p := by
      rw [Nat.div_lt_iff_lt_mul hn, Nat.mul_comm]
      exact Nat.mul_lt_mul_of_pos_right hm (Nat.pow_pos (by decide))
    have hpow : tenPow p ≤ tenPow 9 := Nat.pow_le_pow_right (by decide) hnine
    have hlimit : tenPow 9 ≤ limit := by decide
    refine shorten?_ends (h.step hn p extended) (by positivity) ?_ ?_ hplaces (not_lt.1 hnext) ?_
    · rw [div_lt_one (by exact_mod_cast hn)]
      exact_mod_cast Nat.mod_lt _ hn
    · have hn' : (0 : ℚ) < n := by exact_mod_cast hn
      rw [bne_iff_ne, div_pos_iff_of_pos_right hn', Nat.cast_pos, Nat.pos_iff_ne_zero]
    · show q.quotient * tenPow p + r / n < 2 * limit
      omega

end Quotient

/-! Trailing zeros after the point may go. -/

/-- Digits without some of their trailing zeros. -/
def Shortens (q q' : Nat × Nat) : Prop := ∃ n, q.1 = q'.1 * 10 ^ n ∧ q.2 = q'.2 + n

theorem Shortens.trans {q₁ q₂ q₃ : Nat × Nat} (h : Shortens q₁ q₂) (h' : Shortens q₂ q₃) :
    Shortens q₁ q₃ := by
  obtain ⟨n, hdigits, hscale⟩ := h
  obtain ⟨n', hdigits', hscale'⟩ := h'
  refine ⟨n' + n, ?_, by omega⟩
  rw [hdigits, hdigits', pow_add, mul_assoc]

/-- Leaving out zeros at the end does not change the value. -/
theorem Shortens.div_eq {q q' : Nat × Nat} (h : Shortens q q') :
    (q'.1 : ℚ) / 10 ^ q'.2 = q.1 / 10 ^ q.2 := by
  obtain ⟨n, hdigits, hscale⟩ := h
  rw [hdigits, hscale, pow_add]
  push_cast
  rw [mul_div_mul_right _ _ (ten_pow_ne_zero n)]

theorem Shortens.le {q q' : Nat × Nat} (h : Shortens q q') : q'.1 ≤ q.1 ∧ q'.2 ≤ q.2 := by
  obtain ⟨n, hdigits, hscale⟩ := h
  refine ⟨?_, by omega⟩
  rw [hdigits]
  exact Nat.le_mul_of_pos_right _ (by positivity)

theorem stripOnce_shortens (n : Nat) (q : Nat × Nat) : Shortens q (stripOnce n q) := by
  unfold stripOnce
  split
  · next h => exact ⟨n, (Nat.div_mul_cancel (Nat.dvd_of_mod_eq_zero h.1)).symm, by simp; omega⟩
  · exact ⟨0, by simp, rfl⟩

theorem stripEight_shortens (q s : Nat) : Shortens (q, s) (stripEight q s) := by
  fun_induction stripEight q s with
  | case1 q s h ih =>
    refine Shortens.trans ⟨8, ?_, ?_⟩ ih
    · exact (Nat.div_mul_cancel (Nat.dvd_of_mod_eq_zero h.2.2)).symm
    · exact (Nat.sub_add_cancel h.2.1).symm
  | case2 => exact ⟨0, by simp, rfl⟩

/-- Zeros are left out eight at a time and then one at a time. -/
theorem stripZeros_shortens (q s : Nat) : Shortens (q, s) (stripZeros q s) :=
  (((stripEight_shortens q s).trans (stripOnce_shortens 4 _)).trans (stripOnce_shortens 2 _)).trans
    (stripOnce_shortens 1 _)

theorem size_div (a b : Decimal) :
    |a.value / b.value| * 10 ^ ((a.scale : ℤ) - b.scale) = a.coefficient / b.coefficient := by
  rw [abs_div, abs_value, abs_value, zpow_sub₀ (by norm_num), zpow_natCast, zpow_natCast]
  have ha := ten_pow_ne_zero a.scale
  have hb := ten_pow_ne_zero b.scale
  field_simp

theorem div_sign (a b : Decimal) :
    (a.negative ≠ b.negative → a.value / b.value ≤ 0) ∧
      (a.negative = b.negative → 0 ≤ a.value / b.value) := by
  have hsize := div_nonneg a.size_nonneg b.size_nonneg
  rw [value_eq, value_eq]
  cases a.negative <;> cases b.negative <;> simp [hsize, neg_div, div_neg]

/-- A quotient is rounded to the nearest decimal. -/
theorem divNonzero?_isRounded (hb : ¬b.isZero) :
    IsRounded (a.value / b.value) (divNonzero? a b) := by
  obtain ⟨hdiffer, hsame⟩ := div_sign a b
  have hpos : 0 < b.coefficient := Nat.pos_of_ne_zero fun h => hb (by simp [isZero, h])
  have hstart : Quotient.StandsFor ⟨a.coefficient / b.coefficient, (a.scale : ℤ) - b.scale, false⟩
      ((a.coefficient % b.coefficient : Nat) / b.coefficient) |a.value / b.value| := by
    rw [Quotient.StandsFor, size_div]
    exact natCast_div_eq a.coefficient hpos
  have hends := Quotient.extend?_ends hpos hstart (Nat.mod_lt _ hpos)
    (by have := a.scale_le; show (a.scale : ℤ) - b.scale ≤ _; omega)
    ((Nat.div_le_self _ _).trans_lt a.coefficient_lt)
  unfold divNonzero?
  simp only
  generalize Quotient.extend? _ _ _ = full at hends ⊢
  cases hends with
  | none h => exact ⟨h, by simp⟩
  | @some full k hk hmax hlt h =>
    simp only [Option.bind_eq_bind, Option.bind_some, hk, Int.toNat_natCast]
    -- Trailing zeros go or stay.
    obtain ⟨q, hq, hshort⟩ : ∃ q, (if full.extended then stripZeros full.quotient k
        else (full.quotient, k)) = q ∧ Shortens (full.quotient, k) q := by
      split
      · exact ⟨_, rfl, stripZeros_shortens _ _⟩
      · exact ⟨_, rfl, 0, by simp, rfl⟩
    rw [hq]
    have hle := hshort.le
    refine ⟨?_, fun c hc => ?_⟩
    · rw [size_ofParts? (hle.1.trans_lt hlt) (hle.2.trans hmax), hshort.div_eq]
      exact h
    · obtain ⟨hnegative, hcoefficient, -⟩ := ofParts?_eq_some hc
      rw [← hcoefficient] at hnegative
      exact mul_value_nonneg_of_signs hdiffer hsame hnegative

/-- A quotient is the exact one, rounded to what fits. -/
theorem div_isRounded (a : Decimal) (hb : ¬b.isZero) :
    IsRounded (a.value / b.value) (a.div b).value? := by
  unfold div
  rw [if_neg hb]
  split
  · next ha =>
    rw [isZero_iff.1 ha, zero_div]
    exact value_zero ▸ zero.isRounded_value
  · rw [value_outcome]
    exact divNonzero?_isRounded hb

/-! ## Operations on numbers of the same value -/

theorem add_congr {a' b' : Decimal} (ha : a.value = a'.value) (hb : b.value = b'.value) :
    (a.add b).value?.map value = (a'.add b').value?.map value :=
  (add_isRounded a b).unique (ha ▸ hb ▸ add_isRounded a' b')

theorem mul_congr {a' b' : Decimal} (ha : a.value = a'.value) (hb : b.value = b'.value) :
    (a.mul b).value?.map value = (a'.mul b').value?.map value :=
  (mul_isRounded a b).unique (ha ▸ hb ▸ mul_isRounded a' b')

theorem div_congr {a' b' : Decimal} (ha : a.value = a'.value) (hb : b.value = b'.value) :
    (a.div b).value?.map value = (a'.div b').value?.map value := by
  by_cases hzero : b.isZero
  · have hzero' : b'.isZero := isZero_iff.2 (hb ▸ isZero_iff.1 hzero)
    rw [div, div, if_pos hzero, if_pos hzero']
  · have hzero' : ¬b'.isZero := fun h => hzero (isZero_iff.2 (hb ▸ isZero_iff.1 h))
    exact (div_isRounded a hzero).unique (ha ▸ hb ▸ div_isRounded a' hzero')

end Decimal

end DoubleEntry
