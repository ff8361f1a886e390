import DoubleEntry.Proofs.Decimal.Nearest
import DoubleEntry.Proofs.Ends

/-!
# Numbers that stay small

Rounding does not carry a number past an integer that fits, for that integer does not round. So
operations on small numbers have a result, which is as small as the exact one would be, and this
goes on through runs of any length.

* `Decimal.IsRounded.exists_le`: a result is within the integer bounds of the exact one.
* `Decimal.add_within`, `sub_within`, `mul_within`: operations on numbers within bounds.
* `Checked.Ends.foldlM_counted`: a run in which every step counts for so much.
* `Decimal.sum_within`: sums of any length.
-/

namespace DoubleEntry

namespace Checked.Ends

variable {α σ δ : Type} {P : α → Prop} {E : ArithmeticError → Prop} {x : Checked α} {a : α}

theorem of_value?_eq (h : x.value? = some a) (ha : P a) : x.Ends P E :=
  iff.2 ⟨fun _ hb => Option.some.inj (h.symm.trans hb) ▸ ha, fun _ he => by simp [he] at h⟩

/-- What cannot fail gives a result. -/
theorem exists_value? (h : x.Ends P fun _ => False) : ∃ a, x.value? = some a ∧ P a := by
  cases h with
  | exact h | rounded h => exact ⟨_, rfl, h⟩
  | error h => exact h.elim

/-- A run in which every step adds its weight to a count, up to a limit: after it, the count is that
of all steps. -/
theorem foldlM_counted (Inv : Nat → σ → Prop) {f : σ → δ → Checked σ} {weight : δ → Nat}
    {l : List δ} (most : Nat)
    (step : ∀ d ∈ l, ∀ n s, n + weight d ≤ most → Inv n s → (f s d).Ends (Inv (n + weight d)) E)
    {n : Nat} {s : σ} (hs : Inv n s) (hmost : n + (l.map weight).sum ≤ most) :
    (l.foldlM f s).Ends (Inv (n + (l.map weight).sum)) E := by
  induction l generalizing n s with
  | nil => exact .exact hs
  | cons d l ih =>
    rw [List.map_cons, List.sum_cons, ← Nat.add_assoc] at hmost ⊢
    rw [List.foldlM_cons]
    have hd := step d List.mem_cons_self n s (Nat.le_of_add_right_le hmost) hs
    exact hd.bind fun s' hs' => ih (fun e he => step e (List.mem_cons_of_mem d he)) hs' hmost

end Checked.Ends

namespace Decimal

variable {E : ArithmeticError → Prop} {a b : Decimal} {x : ℚ} {m n : Nat}

/-- Without its sign, the number is at most an integer. -/
def AtMost (n : Nat) (a : Decimal) : Prop := a.size ≤ n

theorem AtMost.mono (h : a.AtMost m) (hmn : m ≤ n) : a.AtMost n :=
  le_trans h (Nat.cast_le.2 hmn)

theorem AtMost.neg (h : a.AtMost n) : a.neg.AtMost n := by
  unfold AtMost at h ⊢
  rwa [size, value_neg, abs_neg]

theorem atMost_zero (n : Nat) : zero.AtMost n := by simp [AtMost, size]

/-- What is within an integer bound that fits is so after rounding. -/
theorem Rounds.exists_le {r : Option ℚ} (h : Rounds x r) (hx : x ≤ n) (hn : n < limit) :
    ∃ y, r = some y ∧ y ≤ n := by
  cases h with
  | @fits k q h =>
    have hdigits : x * 10 ^ k ≤ (n * 10 ^ k : Nat) := by
      push_cast
      exact mul_le_mul_of_nonneg_right hx (by positivity)
    have hle : q ≤ n * 10 ^ k := h.nearest.mono (.natCast _) hdigits
    refine ⟨_, rfl, ?_⟩
    rw [div_le_iff₀ (by positivity)]
    exact_mod_cast hle
  | tooLarge h hq => exact absurd (h.mono (.natCast n) hx) (hn.trans_le hq).not_ge

/-- A rounded result is within the integer bounds of the exact one that fit. -/
theorem IsRounded.exists_le {r : Option Decimal} (h : IsRounded x r) (hx : |x| ≤ n)
    (hn : n < limit) : ∃ c, r = some c ∧ c.AtMost n := by
  obtain ⟨y, hy, hle⟩ := h.size.exists_le hx hn
  obtain ⟨c, hc, rfl⟩ := Option.map_eq_some_iff.1 hy
  exact ⟨c, hc, hle⟩

theorem IsRounded.ends {r : Checked Decimal} (h : IsRounded x r.value?) (hx : |x| ≤ n)
    (hn : n < limit) : r.Ends (AtMost n) E := by
  obtain ⟨c, hc, hle⟩ := h.exists_le hx hn
  exact .of_value?_eq hc hle

/-! ## Operations -/

theorem add_within (ha : a.AtMost m) (hb : b.AtMost n) (h : m + n < limit) :
    (a.add b).Ends (AtMost (m + n)) E := by
  refine (add_isRounded a b).ends ?_ h
  push_cast
  exact (abs_add_le _ _).trans (add_le_add ha hb)

theorem sub_within (ha : a.AtMost m) (hb : b.AtMost n) (h : m + n < limit) :
    (a.sub b).Ends (AtMost (m + n)) E := by
  refine (sub_isRounded a b).ends ?_ h
  push_cast
  exact (abs_sub _ _).trans (add_le_add ha hb)

theorem mul_within (ha : a.AtMost m) (hb : b.AtMost n) (h : m * n < limit) :
    (a.mul b).Ends (AtMost (m * n)) E := by
  refine (mul_isRounded a b).ends ?_ h
  rw [abs_mul]
  push_cast
  exact mul_le_mul ha hb b.size_nonneg (Nat.cast_nonneg m)

/-- A sum of numbers within a bound, in any number that fits. -/
theorem sum_within {l : List Decimal} (hl : ∀ a ∈ l, a.AtMost m) (h : l.length * m < limit) :
    (sum l).Ends (AtMost (l.length * m)) E := by
  have hcount : 0 + (l.map fun _ => m).sum = l.length * m := by simp
  have hrun : (l.foldlM add zero).Ends (AtMost (0 + (l.map fun _ => m).sum)) E :=
    Checked.Ends.foldlM_counted AtMost (limit - 1)
      (fun a ha n t hn ht => add_within ht (hl a ha) (by omega)) (atMost_zero 0) (by omega)
  rwa [hcount] at hrun

end Decimal

end DoubleEntry
