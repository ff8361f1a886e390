import DoubleEntry.Booking.Balance
import DoubleEntry.Proofs.Inventory

/-!
# The residual of a transaction

As long as no operation rounds, the residual of a transaction in a currency is the sum of what its
postings weigh in it (`value_residual`).
-/

namespace DoubleEntry

/-- The number that a posting weighs in a currency. -/
def Posting.weightIn (p : Posting) (c : Currency) : ℚ :=
  p.weight?.value?.join.elim 0 (·.inCurrency c)

/-- The weight in a currency is that of the amount in which a posting weighs. -/
theorem Posting.weightIn_of_exact {p : Posting} {w : Option Amount} (h : p.weight? = .exact w)
    (c : Currency) : p.weightIn c = w.elim 0 (·.inCurrency c) := by
  simp [weightIn, h]

theorem Totals.number_insert (t : Totals) (currency : Currency) (n : Decimal) (c : Currency) :
    Totals.number (t.insert currency n) c = if currency = c then n else t.number c := by
  unfold number
  rw [Std.TreeMap.getD_insert]
  by_cases h : currency = c <;> simp [h]

theorem Totals.value_add {t t' : Totals} {a : Amount} (h : t.add a = .exact t') (c : Currency) :
    (t'.number c).value = (t.number c).value + a.inCurrency c := by
  obtain ⟨n, hn, ht⟩ := Checked.bind_eq_exact.1 h
  obtain rfl := Checked.exact.inj ht
  rw [number_insert, Amount.inCurrency]
  by_cases hc : a.currency = c
  · rw [if_pos hc, if_pos hc, Decimal.value_add hn, hc]
  · rw [if_neg hc, if_neg hc, add_zero]

/-- A posting adds its weight to the total of each currency, and nothing to the others. -/
theorem Totals.value_addWeight {t t' : Totals} {p : Posting} (h : t.addWeight p = .exact t')
    (c : Currency) : (t'.number c).value = (t.number c).value + p.weightIn c := by
  obtain ⟨w, hw, ht⟩ := Checked.bind_eq_exact.1 h
  rw [Posting.weightIn_of_exact hw]
  cases w with
  | none =>
    obtain rfl : t = t' := by simpa using ht
    exact (add_zero _).symm
  | some a => exact Totals.value_add ht c

/-- The total of a currency is the sum of the weights in it. -/
theorem value_residualOf {ps : List Posting} {r : Totals} (h : residualOf ps = .exact r)
    (c : Currency) : (r.number c).value = (ps.map (·.weightIn c)).sum := by
  refine Checked.foldlM_invariant
    (fun seen (t : Totals) => (t.number c).value = (seen.map (·.weightIn c)).sum) ?_ ?_
    (Checked.gives_true.2 h)
  · exact Decimal.value_zero
  · intro seen t p t' ht hp
    rw [Totals.value_addWeight (Checked.gives_true.1 hp), ht]
    simp

/-- A residual is computed from the weights of all postings. -/
theorem exists_weight_of_residualOf {strict : Bool} {ps : List Posting} {r : Totals}
    (h : (residualOf ps).Gives strict r) : ∀ p ∈ ps, ∃ w, p.weight?.Gives strict w := by
  refine Checked.foldlM_invariant
    (fun seen (_ : Totals) => ∀ p ∈ seen, ∃ w, p.weight?.Gives strict w) (by simp) ?_ h
  intro seen t p t' hseen hp
  obtain ⟨w, hw, -⟩ := Checked.bind_gives.1 hp
  exact List.forall_mem_append.2 ⟨hseen, List.forall_mem_singleton.2 ⟨w, hw⟩⟩

/-- The residual of a transaction in a currency is the sum of the weights of its postings in it. -/
theorem Transaction.value_residual {t : Transaction} {r : Totals} (h : t.residual = .exact r)
    (c : Currency) : (r.number c).value = (t.postings.map (·.weightIn c)).sum :=
  value_residualOf h c

end DoubleEntry
