import DoubleEntry.Proofs.Decimal.Places

/-!
# Rounding to the nearest decimal

A sum or product that is not exact is the decimal nearest to the exact result, of two the even one,
among those with as many places as fit. So its value depends on the values of the operands alone,
not on how these are written.

* `IsNearestEven`: the nearest integer; `divHalfEven` computes it.
* `Rounds`: what becomes of an exact result without its sign, in one way only (`Rounds.unique`).
* `add_isRounded`, `sub_isRounded`, `mul_isRounded`: each operation rounds the exact result.
* `exists_add`, `exists_mul`: an operation is exact if any decimal has the value of its result.
-/

namespace DoubleEntry

/-- `q` is the integer nearest to `x`, of two the even one. -/
structure IsNearestEven (x : ℚ) (q : Nat) : Prop where
  near : |x - q| ≤ 1 / 2
  even_of_tie : |x - q| = 1 / 2 → q % 2 = 0

namespace IsNearestEven

variable {x y : ℚ} {p q : Nat}

theorem mono (hp : IsNearestEven x p) (hq : IsNearestEven y q) (hxy : x ≤ y) : p ≤ q := by
  by_contra hlt
  obtain ⟨hp₁, hp₂⟩ := abs_le.1 hp.near
  obtain ⟨hq₁, hq₂⟩ := abs_le.1 hq.near
  have hstep : (q : ℚ) + 1 ≤ p := by exact_mod_cast Nat.lt_of_not_le hlt
  -- Both numbers lie halfway between `q` and `p = q + 1`, and only one of these is even.
  have hx : x - p = -(1 / 2) := by linarith
  have hy : y - q = 1 / 2 := by linarith
  have hnext : p = q + 1 := by
    have : (p : ℚ) = q + 1 := by linarith
    exact_mod_cast this
  have hp := hp.even_of_tie (by rw [hx]; norm_num)
  have hq := hq.even_of_tie (by rw [hy]; norm_num)
  omega

theorem unique (hp : IsNearestEven x p) (hq : IsNearestEven x q) : p = q :=
  Nat.le_antisymm (hp.mono hq le_rfl) (hq.mono hp le_rfl)

theorem natCast (n : Nat) : IsNearestEven n n :=
  ⟨by norm_num, fun h => by norm_num at h⟩

/-- A number between an integer and the next, by the part that goes beyond the first. -/
theorem of_part {f : ℚ} (h₀ : 0 ≤ f) (h₁ : f < 1) :
    IsNearestEven (p + f) (if 1 / 2 < f ∨ (f = 1 / 2 ∧ p % 2 = 1) then p + 1 else p) := by
  split
  · next hup =>
    have hf : (p : ℚ) + f - (p + 1 : Nat) = -(1 - f) := by push_cast; ring
    have habs : |(p : ℚ) + f - (p + 1 : Nat)| = 1 - f := by
      rw [hf, abs_neg, abs_of_nonneg (by linarith)]
    refine ⟨?_, fun htie => ?_⟩
    · rw [habs]
      rcases hup with hup | ⟨hup, -⟩ <;> linarith
    · rw [habs] at htie
      rcases hup with hup | ⟨-, hodd⟩
      · linarith
      · omega
  · next hdown =>
    push Not at hdown
    have habs : |(p : ℚ) + f - p| = f := by rw [add_sub_cancel_left, abs_of_nonneg h₀]
    refine ⟨by rw [habs]; exact hdown.1, fun htie => ?_⟩
    have hodd := hdown.2 (habs ▸ htie)
    omega

end IsNearestEven

/-- A quotient of natural numbers is its integer part and a proper fraction. -/
theorem natCast_div_eq (n : Nat) {d : Nat} (hd : 0 < d) :
    (n : ℚ) / d = (n / d : Nat) + (n % d : Nat) / d := by
  have hd' : (d : ℚ) ≠ 0 := by exact_mod_cast hd.ne'
  rw [div_eq_iff hd', add_mul, div_mul_cancel₀ _ hd']
  exact_mod_cast (Nat.div_add_mod' n d).symm

/-- Rounding by the remainder of a division is rounding to the nearest integer. -/
theorem IsNearestEven.of_remainder (p : Nat) {r d : Nat} (hr : r < d) :
    IsNearestEven (p + r / d) (if d < 2 * r ∨ (2 * r = d ∧ p % 2 = 1) then p + 1 else p) := by
  have hd : (0 : ℚ) < d := by exact_mod_cast Nat.zero_lt_of_lt hr
  have hpart : (r : ℚ) / d < 1 := (div_lt_one hd).2 (by exact_mod_cast hr)
  convert IsNearestEven.of_part (p := p) (by positivity) hpart using 1
  refine if_congr ?_ rfl rfl
  rw [div_lt_div_iff₀ two_pos hd, div_eq_div_iff hd.ne' two_ne_zero, one_mul, mul_comm _ (2 : ℚ)]
  norm_cast

theorem divHalfEven_isNearestEven (n : Nat) {d : Nat} (hd : 0 < d) :
    IsNearestEven (n / d) (divHalfEven n d) := by
  rw [natCast_div_eq n hd]
  exact .of_remainder (n / d) (Nat.mod_lt n hd)

namespace Decimal

variable {a b c d : Decimal} {x y : ℚ} {k m q s : Nat} {negative : Bool}

/-! ## Rounding to the places that fit -/

/-- With `k` places, `q` are the digits nearest to a number without sign, and with more places they
would not fit. -/
structure NearestAt (x : ℚ) (k q : Nat) : Prop where
  nearest : IsNearestEven (x * 10 ^ k) q
  places_le : k ≤ maxScale
  lt : q < limit
  most : k = maxScale ∨ ∃ more, IsNearestEven (x * 10 ^ (k + 1)) more ∧ limit ≤ more

/-- What becomes of an exact result without its sign: the nearest number that fits, or nothing if
not even its integer part does. -/
inductive Rounds (x : ℚ) : Option ℚ → Prop
  | fits {k q : Nat} (h : NearestAt x k q) : Rounds x (some (q / 10 ^ k))
  | tooLarge {q : Nat} (h : IsNearestEven x q) (hq : limit ≤ q) : Rounds x none

theorem NearestAt.le_places {k' q' : Nat} (hx : 0 ≤ x) (h : NearestAt x k q)
    (h' : NearestAt x k' q') : k ≤ k' := by
  by_contra hlt
  rcases h'.most with hmax | ⟨more, hmore, hle⟩
  · have := h.places_le
    omega
  · have hpow : (10 : ℚ) ^ (k' + 1) ≤ 10 ^ k := pow_le_pow_right₀ (by norm_num) (by omega)
    have hlarge := hmore.mono h.nearest (mul_le_mul_of_nonneg_left hpow hx)
    have := h.lt
    omega

theorem NearestAt.not_tooLarge (hx : 0 ≤ x) (h : NearestAt x k q) {m : Nat}
    (hm : IsNearestEven x m) : m < limit := by
  have hle : x ≤ x * 10 ^ k := le_mul_of_one_le_right hx (one_le_pow₀ (by norm_num))
  exact (hm.mono h.nearest hle).trans_lt h.lt

/-- A number rounds in one way only. -/
theorem Rounds.unique {r r' : Option ℚ} (hx : 0 ≤ x) (h : Rounds x r) (h' : Rounds x r') :
    r = r' := by
  cases h with
  | fits h =>
    cases h' with
    | fits h' =>
      obtain rfl := Nat.le_antisymm (h.le_places hx h') (h'.le_places hx h)
      rw [h.nearest.unique h'.nearest]
    | tooLarge h' hq => exact absurd hq (h.not_tooLarge hx h').not_ge
  | tooLarge h hq =>
    cases h' with
    | fits h' => exact absurd hq (h'.not_tooLarge hx h).not_ge
    | tooLarge => rfl

theorem NearestAt.rounds (h : NearestAt x k q) (hy : y = q / 10 ^ k) : Rounds x (some y) :=
  hy ▸ .fits h

/-! ## Numbers that fit -/

/-- The most places with which a number still fits that is a whole number of units with `k` of
them. -/
def mostPlaces (q k : Nat) : Nat := Nat.findGreatest (fun j => q * 10 ^ (j - k) < limit) maxScale

theorem mostPlaces_le (q k : Nat) : mostPlaces q k ≤ maxScale := Nat.findGreatest_le maxScale

theorem le_mostPlaces (hk : k ≤ maxScale) (hq : q < limit) : k ≤ mostPlaces q k :=
  Nat.le_findGreatest hk (by simpa using hq)

theorem mul_mostPlaces_lt (hk : k ≤ maxScale) (hq : q < limit) :
    q * 10 ^ (mostPlaces q k - k) < limit :=
  Nat.findGreatest_spec (P := fun j => q * 10 ^ (j - k) < limit) hk (by simpa using hq)

/-- With one more place it does not fit, if there is room for one. -/
theorem le_mul_of_mostPlaces_lt (h : mostPlaces q k < maxScale) :
    limit ≤ q * 10 ^ (mostPlaces q k + 1 - k) :=
  not_lt.1 (Nat.findGreatest_is_greatest (P := fun j => q * 10 ^ (j - k) < limit)
    (Nat.lt_succ_self _) h)

/-- The same number with more places. -/
theorem mul_ten_pow_eq (hx : x = q / 10 ^ k) {j : Nat} (hj : k ≤ j) :
    x * 10 ^ j = (q * 10 ^ (j - k) : Nat) := by
  rw [hx, div_mul_eq_mul_div, div_eq_iff (ten_pow_ne_zero _), Nat.cast_mul, mul_assoc]
  push_cast
  rw [← pow_add, Nat.sub_add_cancel hj]

/-- A number that fits stays as it is. -/
theorem Rounds.of_eq (hk : k ≤ maxScale) (hq : q < limit) (hx : x = q / 10 ^ k) :
    Rounds x (some x) := by
  -- It has the same value with as many places as there is room for.
  have hle : k ≤ mostPlaces q k := le_mostPlaces hk hq
  have hdigits : x * 10 ^ mostPlaces q k = (q * 10 ^ (mostPlaces q k - k) : Nat) :=
    mul_ten_pow_eq hx hle
  have hvalue : x = (q * 10 ^ (mostPlaces q k - k) : Nat) / 10 ^ mostPlaces q k := by
    rw [← hdigits, mul_div_cancel_right₀ _ (ten_pow_ne_zero _)]
  refine NearestAt.rounds ⟨?_, mostPlaces_le q k, mul_mostPlaces_lt hk hq, ?_⟩ hvalue
  · rw [hdigits]
    exact IsNearestEven.natCast _
  · rcases (mostPlaces_le q k).eq_or_lt with hmax | hlt
    · exact .inl hmax
    · refine .inr ⟨q * 10 ^ (mostPlaces q k + 1 - k), ?_, le_mul_of_mostPlaces_lt hlt⟩
      rw [mul_ten_pow_eq hx (hle.trans (Nat.le_succ _))]
      exact IsNearestEven.natCast _

theorem rounds_value (a : Decimal) : Rounds |a.value| (some |a.value|) :=
  .of_eq a.scale_le a.coefficient_lt a.abs_value

theorem exists_isNearestEven (hx : 0 ≤ x) : ∃ q, IsNearestEven x q := by
  have hden : ((x.num.toNat : Nat) : ℚ) / x.den = x := by
    rw [← Int.cast_natCast, Int.toNat_of_nonneg (Rat.num_nonneg.2 hx), Rat.num_div_den]
  exact ⟨_, hden ▸ divHalfEven_isNearestEven x.num.toNat x.den_pos⟩

/-- A number that is not below the limit does not fit. -/
theorem Rounds.of_le (hx : (limit : ℚ) ≤ x) : Rounds x none := by
  obtain ⟨q, hq⟩ := exists_isNearestEven ((Nat.cast_nonneg limit).trans hx)
  exact .tooLarge hq ((IsNearestEven.natCast limit).mono hq hx)

/-- Digits that only rounding brings up to the limit give up one more place. -/
theorem NearestAt.carry (hk : k ≤ maxScale) (h : IsNearestEven (x * 10 ^ (k + 1)) limit)
    (hlt : x * 10 ^ (k + 1) < limit) : NearestAt x k (limit / 10 + 1) := by
  have hlimit : (limit : ℚ) = 79228162514264337593543950336 := by norm_num [limit]
  have hdigits : ((limit / 10 + 1 : Nat) : ℚ) = 7922816251426433759354395034 := by norm_num [limit]
  have hnear := (abs_le.1 h.near).1
  rw [pow_succ, ← mul_assoc, hlimit] at hnear hlt
  have hdiff : |x * 10 ^ k - (limit / 10 + 1 : Nat)| < 1 / 2 := by
    rw [hdigits, abs_lt]
    constructor <;> linarith
  refine ⟨⟨hdiff.le, fun htie => absurd htie hdiff.ne⟩, hk, by decide, .inr ⟨limit, h, le_rfl⟩⟩

/-! ## Sums and products -/

/-- The size of a number, without its sign. -/
def size (a : Decimal) : ℚ := |a.value|

theorem size_ofParts? (hq : q < limit) (hk : k ≤ maxScale) :
    (ofParts? negative q k).map size = some ((q : ℚ) / 10 ^ k) := by
  rw [ofParts?, dif_pos ⟨hq, hk⟩, Option.map_some, size, abs_value]

theorem fit?_rounds (negative : Bool) (m s : Nat) :
    Rounds (m / 10 ^ s) ((fit? negative m s).map size) := by
  -- With `d` places dropped the digits are `m / 10 ^ d`.
  have hdrop (d : Nat) (hd : d ≤ s) : (m : ℚ) / 10 ^ s * 10 ^ (s - d) = m / (10 ^ d : Nat) := by
    rw [div_mul_eq_mul_div, div_eq_div_iff (ten_pow_ne_zero _) (by positivity), mul_assoc]
    push_cast
    rw [← pow_add, Nat.sub_add_cancel hd]
  have hround (d : Nat) (hd : d ≤ s) :
      IsNearestEven ((m : ℚ) / 10 ^ s * 10 ^ (s - d)) (divHalfEven m (10 ^ d)) := by
    rw [hdrop d hd]
    exact divHalfEven_isNearestEven m (by positivity)
  -- Fewer than `excess m` places are too few to drop.
  have hlarge (d : Nat) (hd : d < excess m) : (limit : ℚ) ≤ m / (10 ^ d : Nat) := by
    have hle : limit ≤ m / 10 ^ d := not_lt.1 fun h => absurd ((excess_le_iff m d).2 h) (by omega)
    rw [le_div_iff₀ (by positivity)]
    exact_mod_cast (Nat.le_div_iff_mul_le (by positivity)).1 hle
  unfold fit?
  simp only
  generalize hd : max (s - maxScale) (excess m) = d
  show Rounds _ (Option.map size (if s < d then none
    else if divHalfEven m (10 ^ d) < limit then ofParts? negative (divHalfEven m (10 ^ d)) (s - d)
    else if s = d then none
    else ofParts? negative (divHalfEven (divHalfEven m (10 ^ d)) 10) (s - d - 1)))
  split
  · next hs =>
    refine Rounds.of_le ?_
    have hx := hlarge s (by omega)
    rwa [Nat.cast_pow, Nat.cast_ofNat] at hx
  next hs =>
  have hds : d ≤ s := not_lt.1 hs
  split
  · next hq =>
    rw [size_ofParts? hq (by omega)]
    rcases Nat.eq_zero_or_pos d with rfl | hpos
    · -- Nothing is dropped.
      have hm : divHalfEven m (10 ^ 0) = m := by simpa using divHalfEven_mul m Nat.one_pos
      rw [hm] at hq ⊢
      exact .of_eq (by omega) hq rfl
    · refine .fits ⟨hround d hds, by omega, hq, ?_⟩
      by_cases hmax : s - d = maxScale
      · exact .inl hmax
      · have hnext : s - d + 1 = s - (d - 1) := by omega
        rw [hnext]
        refine .inr ⟨_, hround (d - 1) (by omega), ?_⟩
        refine (IsNearestEven.natCast limit).mono (hround (d - 1) (by omega)) ?_
        rw [hdrop _ (by omega)]
        exact hlarge _ (by omega)
  next hq =>
  -- Rounding has carried the digits to the limit.
  have hbelow : (m : ℚ) / 10 ^ s * 10 ^ (s - d) < limit := by
    have hlt : m / 10 ^ d < limit := (excess_le_iff m d).1 (by omega)
    rw [hdrop d hds, div_lt_iff₀ (by positivity)]
    exact_mod_cast (Nat.div_lt_iff_lt_mul (by positivity)).1 hlt
  have hcarry : divHalfEven m (10 ^ d) = limit :=
    Nat.le_antisymm ((hround d hds).mono (.natCast limit) hbelow.le) (not_lt.1 hq)
  have hlimit := hcarry ▸ hround d hds
  rw [hcarry]
  split
  · next heq =>
    subst heq
    rw [Nat.sub_self, pow_zero, mul_one] at hlimit
    exact .tooLarge hlimit le_rfl
  next hne =>
  have hplaces : s - d = s - d - 1 + 1 := by omega
  rw [hplaces] at hlimit hbelow
  have hnearest := NearestAt.carry (by omega) hlimit hbelow
  have hdigits : divHalfEven limit 10 = limit / 10 + 1 := by decide +kernel
  rw [hdigits, size_ofParts? hnearest.lt hnearest.places_le]
  exact .fits hnearest

theorem negative_of_fit? (h : fit? negative m s = some c) : c.negative = negative := by
  unfold fit? at h
  simp only at h
  split at h
  · cases h
  split at h
  · exact (ofParts?_eq_some h).1
  split at h
  · cases h
  · exact (ofParts?_eq_some h).1

/-! The sign of a result is that of the exact one. -/

theorem value_eq (a : Decimal) : a.value = if a.negative then -a.size else a.size := by
  rw [size, abs_value, value, signed]
  split <;> simp [neg_div]

theorem size_nonneg (a : Decimal) : 0 ≤ a.size := abs_nonneg _

theorem value_outcome (e : ArithmeticError) (isExact : Decimal → Bool) (r : Option Decimal) :
    (outcome e isExact r).value? = r := by
  cases r with
  | none => rfl
  | some a =>
    simp only [outcome]
    split <;> rfl

/-- The result of an operation is the exact one, rounded to what fits. -/
structure IsRounded (x : ℚ) (r : Option Decimal) : Prop where
  size : Rounds |x| (r.map size)
  sign : ∀ c, r = some c → 0 ≤ x * c.value

/-- Two results for one number have the same value. -/
theorem IsRounded.unique {r r' : Option Decimal} (h : IsRounded x r) (h' : IsRounded x r') :
    r.map value = r'.map value := by
  have hsize := h.size.unique (abs_nonneg x) h'.size
  cases r with
  | none =>
    cases r' with
    | none => rfl
    | some c' => simp at hsize
  | some c =>
    cases r' with
    | none => simp at hsize
    | some c' =>
      rw [Option.map_some, Option.map_some, Option.some_inj] at hsize ⊢
      rcases abs_eq_abs.1 hsize with heq | hopposite
      · exact heq
      · have hc := h.sign c rfl
        have hc' := h'.sign c' rfl
        rw [hopposite, mul_neg] at hc
        rcases mul_eq_zero.1 (le_antisymm (neg_nonneg.1 hc) hc') with rfl | hzero
        · -- Zero stays zero.
          have hzero : Rounds |0| (some |0|) :=
            .of_eq (k := 0) (q := 0) (by decide) (by decide) (by simp)
          have := h'.size.unique (abs_nonneg 0) hzero
          simp only [Option.map_some, Option.some_inj, Decimal.size, abs_zero, abs_eq_zero] at this
          rw [hopposite, this, neg_zero]
        · rw [hopposite, hzero, neg_zero]

theorem isRounded_value (a : Decimal) : IsRounded a.value (some a) :=
  ⟨a.rounds_value, fun _ hc => Option.some.inj hc ▸ mul_self_nonneg a.value⟩

/-- A result that has the sign of a number, or is zero. -/
theorem mul_value_nonneg (hneg : c.negative → x ≤ 0) (hpos : ¬c.negative → c.size = 0 ∨ 0 ≤ x) :
    0 ≤ x * c.value := by
  rw [value_eq]
  split
  · next h => exact mul_nonneg_of_nonpos_of_nonpos (hneg h) (neg_nonpos.2 c.size_nonneg)
  · next h =>
    rcases hpos h with hzero | hx
    · rw [hzero, mul_zero]
    · exact mul_nonneg hx c.size_nonneg

theorem addNonzero?_isRounded (a b : Decimal) :
    IsRounded (a.value + b.value) (addNonzero? a b) := by
  have hx := exactSum_div a b
  have hpow : (0 : ℚ) < 10 ^ max a.scale b.scale := by positivity
  constructor
  · have hsize : |a.value + b.value| = (exactSum a b).natAbs / 10 ^ max a.scale b.scale := by
      rw [← hx, abs_div, abs_of_pos hpow, Nat.cast_natAbs, Int.cast_abs]
    rw [hsize]
    exact fit?_rounds _ _ _
  · intro c hc
    have hnegative := negative_of_fit? hc
    rw [← hx]
    refine mul_value_nonneg (fun h => ?_) (fun h => .inr ?_)
    · rw [hnegative, decide_eq_true_iff] at h
      exact div_nonpos_of_nonpos_of_nonneg (by exact_mod_cast h.le) hpow.le
    · rw [hnegative, decide_eq_true_iff, not_lt] at h
      exact div_nonneg (by exact_mod_cast h) hpow.le

/-- A sum is the exact one, rounded to what fits. -/
theorem add_isRounded (a b : Decimal) : IsRounded (a.value + b.value) (a.add b).value? := by
  unfold add
  split
  · next ha =>
    rw [isZero_iff.1 ha, zero_add]
    exact b.isRounded_value
  split
  · next hb =>
    rw [isZero_iff.1 hb, add_zero]
    exact a.isRounded_value
  · rw [value_outcome]
    exact addNonzero?_isRounded a b

/-- A difference is the exact one, rounded to what fits. -/
theorem sub_isRounded (a b : Decimal) : IsRounded (a.value - b.value) (a.sub b).value? := by
  unfold sub
  split
  · next hb =>
    rw [isZero_iff.1 hb, sub_zero]
    split
    · next ha =>
      rw [isZero_iff.1 ha, ← isZero_iff.1 hb]
      exact b.isRounded_value
    · exact a.isRounded_value
  split
  · next ha =>
    rw [isZero_iff.1 ha, zero_sub, ← value_neg]
    exact b.neg.isRounded_value
  · rw [value_outcome, sub_eq_add_neg, ← value_neg]
    exact addNonzero?_isRounded a b.neg

theorem size_mul (a b : Decimal) :
    |a.value * b.value| = (a.coefficient * b.coefficient : Nat) / 10 ^ (a.scale + b.scale) := by
  rw [abs_mul, abs_value, abs_value, div_mul_div_comm, ← pow_add]
  push_cast
  rfl

/-- A product of numbers of one sign is not negative, and one of different signs not positive. -/
theorem mul_sign (a b : Decimal) :
    (a.negative ≠ b.negative → a.value * b.value ≤ 0) ∧
      (a.negative = b.negative → 0 ≤ a.value * b.value) := by
  have hsize := mul_nonneg a.size_nonneg b.size_nonneg
  rw [value_eq, value_eq]
  cases a.negative <;> cases b.negative <;> simp [hsize]

/-- A result that is negative if the signs differ, unless it is zero. -/
theorem mul_value_nonneg_of_signs (hdiffer : a.negative ≠ b.negative → x ≤ 0)
    (hsame : a.negative = b.negative → 0 ≤ x)
    (hc : c.negative = (a.negative != b.negative && c.coefficient != 0)) : 0 ≤ x * c.value := by
  refine mul_value_nonneg (fun h => hdiffer ?_) (fun h => ?_)
  · rw [hc, Bool.and_eq_true, bne_iff_ne] at h
    exact h.1
  · by_cases hsigns : a.negative = b.negative
    · exact .inr (hsame hsigns)
    · have hzero : c.coefficient = 0 := by simpa [hc, hsigns] using h
      left
      rw [Decimal.size, abs_value, hzero]
      simp

/-- Digits that are rounded to the largest number of places. -/
theorem Rounds.of_maxScale (h : IsNearestEven (x * 10 ^ maxScale) q) (hq : q < limit) :
    Rounds x (some (q / 10 ^ maxScale)) :=
  .fits ⟨h, le_rfl, hq, .inl rfl⟩

/-- A product of coefficients of one word with more places than a decimal has. -/
theorem size_mul_maxScale (h : maxScale < a.scale + b.scale) :
    |a.value * b.value| * 10 ^ maxScale =
      (a.coefficient * b.coefficient : Nat) / (tenPow (a.scale + b.scale - maxScale) : Nat) := by
  rw [size_mul, tenPow_cast, div_mul_eq_mul_div,
    div_eq_div_iff (ten_pow_ne_zero _) (ten_pow_ne_zero _), mul_assoc, ← pow_add,
    Nat.add_sub_cancel' h.le]

/-- Such a product is zero if it has more than 47 places. -/
theorem isNearestEven_zero (hm : m < 2 ^ 64) (hs : 20 ≤ s) :
    IsNearestEven (m / (tenPow s : Nat)) 0 := by
  have htiny : (m : ℚ) / (tenPow s : Nat) < 1 / 2 := by
    have hm' : (m : ℚ) < 2 ^ 64 := by exact_mod_cast hm
    have hpow : (10 : ℚ) ^ 20 ≤ 10 ^ s := pow_le_pow_right₀ (by norm_num) hs
    rw [tenPow_cast, div_lt_iff₀ (by positivity)]
    linarith
  have habs : |(m : ℚ) / (tenPow s : Nat) - (0 : Nat)| < 1 / 2 := by
    rwa [Nat.cast_zero, sub_zero, abs_of_nonneg (by positivity)]
  exact ⟨habs.le, fun htie => absurd htie habs.ne⟩

theorem mulNonzero?_isRounded (a b : Decimal) :
    IsRounded (a.value * b.value) (mulNonzero? a b) := by
  obtain ⟨hdiffer, hsame⟩ := mul_sign a b
  unfold mulNonzero?
  simp only
  split
  · next hwords =>
    obtain ⟨ha, hb, hscale⟩ := hwords
    have hword : a.coefficient * b.coefficient < 2 ^ 64 :=
      (Nat.mul_lt_mul'' ha hb).trans_eq (by decide)
    have hshift := size_mul_maxScale hscale
    split
    · next hsmall =>
      have hnone := hshift ▸ isNearestEven_zero hword (show 20 ≤ a.scale + b.scale - maxScale by
        unfold maxScale
        omega)
      have hzero : zero.size = (0 : Nat) / 10 ^ maxScale := by simp [Decimal.size]
      refine ⟨?_, fun c hc => ?_⟩
      · rw [Option.map_some, hzero]
        exact .of_maxScale hnone (by decide)
      · obtain rfl := Option.some.inj hc
        simp
    · have hpos : 0 < tenPow (a.scale + b.scale - maxScale) := Nat.pow_pos (by decide)
      have hround := divHalfEven_isNearestEven (a.coefficient * b.coefficient) hpos
      have hfits : divHalfEven (a.coefficient * b.coefficient)
          (tenPow (a.scale + b.scale - maxScale)) < limit := by
        refine Nat.lt_of_le_of_lt (hround.mono (.natCast (2 ^ 64)) ?_) (by decide)
        refine (div_le_self (by positivity) ?_).trans (by exact_mod_cast hword.le)
        exact_mod_cast hpos
      refine ⟨?_, fun c hc => ?_⟩
      · rw [size_ofParts? hfits le_rfl]
        exact .of_maxScale (hshift ▸ hround) hfits
      · obtain ⟨hnegative, hcoefficient, -⟩ := ofParts?_eq_some hc
        rw [← hcoefficient] at hnegative
        exact mul_value_nonneg_of_signs hdiffer hsame hnegative
  · constructor
    · rw [size_mul]
      exact fit?_rounds _ _ _
    · intro c hc
      have hnegative := negative_of_fit? hc
      refine mul_value_nonneg (fun h => hdiffer ?_) (fun h => .inr (hsame ?_))
      · simpa [hnegative] using h
      · simpa [hnegative] using h

/-- A product is the exact one, rounded to what fits. -/
theorem mul_isRounded (a b : Decimal) : IsRounded (a.value * b.value) (a.mul b).value? := by
  unfold mul
  split
  · next hz =>
    have hx : a.value * b.value = zero.value := by
      rcases Bool.or_eq_true_iff.1 hz with ha | hb
      · simp [isZero_iff.1 ha]
      · simp [isZero_iff.1 hb]
    rw [hx]
    exact zero.isRounded_value
  · rw [value_outcome]
    exact mulNonzero?_isRounded a b

/-! ## Exact results -/

theorem outcome_of_exact {e : ArithmeticError} {isExact : Decimal → Bool} {r : Option Decimal}
    (h : (outcome e isExact r).value? = some c) (hc : isExact c) :
    outcome e isExact r = .exact c := by
  rw [value_outcome] at h
  rw [h, outcome, if_pos hc]

/-- A rounded result is a number that fits, if the exact one is. -/
theorem IsRounded.exists_of_value {r : Option Decimal} (h : IsRounded d.value r) :
    ∃ c, r = some c ∧ c.value = d.value :=
  Option.map_eq_some_iff.1 (h.unique d.isRounded_value)

/-- A sum is exact if there is a decimal of its value. -/
theorem exists_add (h : a.value + b.value = d.value) :
    ∃ c, a.add b = .exact c ∧ c.value = d.value := by
  obtain ⟨c, hc, hvalue⟩ := (h ▸ add_isRounded a b).exists_of_value
  refine ⟨c, ?_, hvalue⟩
  unfold add at hc ⊢
  split
  · next ha =>
    rw [if_pos ha] at hc
    exact congrArg _ (Option.some.inj hc)
  next ha =>
  split
  · next hb =>
    rw [if_neg ha, if_pos hb] at hc
    exact congrArg _ (Option.some.inj hc)
  next hb =>
  rw [if_neg ha, if_neg hb] at hc
  refine outcome_of_exact hc (decide_eq_true (represents_iff.2 ?_))
  rw [exactSum_div, h, hvalue]

/-- A product is exact if there is a decimal of its value. -/
theorem exists_mul (h : a.value * b.value = d.value) :
    ∃ c, a.mul b = .exact c ∧ c.value = d.value := by
  obtain ⟨c, hc, hvalue⟩ := (h ▸ mul_isRounded a b).exists_of_value
  refine ⟨c, ?_, hvalue⟩
  unfold mul at hc ⊢
  split
  · next hz =>
    rw [if_pos hz] at hc
    exact congrArg _ (Option.some.inj hc)
  next hz =>
  rw [if_neg hz] at hc
  refine outcome_of_exact hc (decide_eq_true (represents_iff.2 ?_))
  rw [hvalue, ← h, value, value, div_mul_div_comm, ← pow_add]
  push_cast
  rfl

end Decimal

end DoubleEntry
