import DoubleEntry.Proofs.Booking.Residual
import DoubleEntry.Proofs.Decimal.Division
import DoubleEntry.Proofs.Ends

/-!
# Weights in a currency

The residual of some postings in a currency is the sum of the numbers that they weigh in it, in
their order. If all of these sums are exact, then the residual of other postings that weigh alike,
in any order, has the same values.

* `weightsIn`: the numbers that postings weigh in a currency.
* `sum_weightsIn`: their sum is the residual.
* `AddExactly`: the sums do not round or overflow.
* `Posting.WeighsAlike`: the same weight, up to the places of its number.
* `residualOf_alike`: postings that weigh alike have alike residuals.
-/

namespace DoubleEntry

variable {strict : Bool} {ps ps' : List Posting} {r r' : Totals} {c : Currency}

/-- The number that a posting weighs in a currency, if it weighs in it. -/
def Posting.numberIn? (p : Posting) (c : Currency) : Option Decimal :=
  (p.weight?.value?.join.filter (·.currency = c)).map (·.number)

/-- The numbers that some postings weigh in a currency, in their order. -/
def weightsIn (c : Currency) (ps : List Posting) : List Decimal := ps.filterMap (·.numberIn? c)

theorem Posting.value_numberIn? (p : Posting) (c : Currency) :
    (p.numberIn? c).elim 0 Decimal.value = p.weightIn c := by
  unfold numberIn? weightIn
  cases p.weight?.value?.join with
  | none => rfl
  | some a =>
    by_cases hc : a.currency = c <;> simp [Option.filter, Amount.inCurrency, hc]

/-- The weights of postings in a currency, as numbers. -/
theorem value_weightsIn (c : Currency) (ps : List Posting) :
    ((weightsIn c ps).map Decimal.value).sum = (ps.map (·.weightIn c)).sum := by
  induction ps with
  | nil => rfl
  | cons p ps ih =>
    rw [List.map_cons, List.sum_cons, ← ih, ← p.value_numberIn? c, weightsIn, weightsIn,
      List.filterMap_cons]
    cases p.numberIn? c with
    | none => exact (zero_add _).symm
    | some n => rfl

/-! ## The residual as sums -/

/-- The weight of one more posting is one more term in its currency. -/
theorem sum_weightsIn_append {t t' : Totals} {p : Posting}
    (ht : (Decimal.sum (weightsIn c ps)).Gives strict (t.number c))
    (h : (t.addWeight p).Gives strict t') :
    (Decimal.sum (weightsIn c (ps ++ [p]))).Gives strict (t'.number c) := by
  obtain ⟨w, hw, h⟩ := Checked.bind_gives.1 h
  rw [weightsIn, List.filterMap_append, Decimal.sum, List.foldlM_append, Checked.bind_gives]
  refine ⟨t.number c, ht, ?_⟩
  rw [List.filterMap_cons, List.filterMap_nil, Posting.numberIn?, hw.value?]
  cases w with
  | none =>
    obtain rfl := Checked.exact_gives.1 h
    exact Checked.exact_gives.2 rfl
  | some a =>
    obtain ⟨n, hn, h⟩ := Checked.bind_gives.1 h
    obtain rfl := Checked.exact_gives.1 h
    rw [Totals.number_insert]
    by_cases hc : a.currency = c
    · subst hc
      simpa [Option.filter, -Checked.pure_eq] using hn
    · simp [Option.filter, hc]

/-- The residual in a currency is the sum of what the postings weigh in it. -/
theorem sum_weightsIn (h : (residualOf ps).Gives strict r) (c : Currency) :
    (Decimal.sum (weightsIn c ps)).Gives strict (r.number c) := by
  refine Checked.foldlM_invariant
    (fun seen (t : Totals) => (Decimal.sum (weightsIn c seen)).Gives strict (t.number c)) ?_ ?_ h
  · exact Checked.exact_gives.2 rfl
  · exact fun seen t p t' ht hp => sum_weightsIn_append ht hp

/-! ## Exact sums -/

/-- What the postings weigh in a currency adds up exactly, whichever currency it is. Only if all of
the weights can be computed do they have to. -/
def AddExactly (ps : List Posting) : Prop :=
  (∀ p ∈ ps, ∃ w, p.weight?.value? = some w) → ∀ c, ∃ s, Decimal.sum (weightsIn c ps) = .exact s

theorem AddExactly.of_exact (h : residualOf ps = .exact r) : AddExactly ps :=
  fun _ c => ⟨r.number c, Checked.gives_true.1 (sum_weightsIn (Checked.gives_true.2 h) c)⟩

/-- Where the sum of the weights is exact, it is the residual. -/
theorem eq_number_of_sum {s : Decimal} (hr : (residualOf ps).value? = some r)
    (hs : Decimal.sum (weightsIn c ps) = .exact s) : s = r.number c := by
  have hgives := Checked.gives_false.1 (sum_weightsIn (Checked.gives_false.2 hr) c)
  rw [hs] at hgives
  exact Option.some.inj hgives

/-- A residual takes all weights. -/
theorem weights_of_residualOf (hr : (residualOf ps).value? = some r) :
    ∀ p ∈ ps, ∃ w, p.weight?.value? = some w := by
  simpa only [Checked.gives_false] using exists_weight_of_residualOf (Checked.gives_false.2 hr)

/-- Where the sums are exact, a residual fails only on a weight. -/
theorem AddExactly.exists_residualOf (h : AddExactly ps)
    (hweights : ∀ p ∈ ps, ∃ w, p.weight?.value? = some w) :
    ∃ r, (residualOf ps).value? = some r := by
  have hsums := h hweights
  clear h
  induction ps using List.reverseRecOn with
  | nil => exact ⟨{}, rfl⟩
  | append_singleton ps p ih =>
    obtain ⟨hps, hp⟩ := List.forall_mem_append.1 hweights
    obtain ⟨w, hw⟩ := hp p (List.mem_singleton_self p)
    have hfirst : ∀ c, ∃ s, Decimal.sum (weightsIn c ps) = .exact s := by
      intro c
      obtain ⟨s, hs⟩ := hsums c
      rw [weightsIn, List.filterMap_append, Decimal.sum, List.foldlM_append] at hs
      obtain ⟨s', hs', -⟩ := Checked.bind_eq_exact.1 hs
      exact ⟨s', hs'⟩
    obtain ⟨r, hr⟩ := ih hps hfirst
    rw [residualOf, List.foldlM_append, Checked.value?_bind, ← residualOf, hr, Option.bind_some,
      List.foldlM_cons, Checked.value?_bind, Totals.addWeight, Checked.value?_bind, hw,
      Option.bind_some]
    cases w with
    | none => exact ⟨r, rfl⟩
    | some a =>
      -- The sum in the currency of the last weight ends with the step that adds it.
      obtain ⟨s, hs⟩ := hsums a.currency
      have hlast : weightsIn a.currency [p] = [a.number] := by
        simp [weightsIn, Posting.numberIn?, hw, Option.filter]
      rw [weightsIn, List.filterMap_append, ← weightsIn, ← weightsIn, hlast, Decimal.sum,
        List.foldlM_append] at hs
      obtain ⟨s', hs', hadd⟩ := Checked.bind_eq_exact.1 hs
      rw [eq_number_of_sum hr hs', List.foldlM_cons] at hadd
      obtain ⟨n, hn, -⟩ := Checked.bind_eq_exact.1 hadd
      exact ⟨r.insert a.currency n, by simp [Totals.add, hn]⟩

theorem AddExactly.value_number (h : AddExactly ps) (hr : (residualOf ps).value? = some r)
    (c : Currency) : (r.number c).value = (ps.map (·.weightIn c)).sum := by
  obtain ⟨s, hs⟩ := h (weights_of_residualOf hr) c
  rw [← eq_number_of_sum hr hs, Decimal.value_sum hs, value_weightsIn]

/-! ## Weights that are alike -/

/-- Amounts of the same currency and value. -/
def Amount.Alike (a b : Amount) : Prop :=
  a.currency = b.currency ∧ a.number.value = b.number.value

/-- The weights of both postings cannot be computed, or there are none, or they are alike. -/
def Posting.WeighsAlike (p p' : Posting) : Prop :=
  Option.Rel (Option.Rel Amount.Alike) p.weight?.value? p'.weight?.value?

/-- Totals with the same values. -/
def Totals.Alike (t t' : Totals) : Prop := ∀ c, (t.number c).value = (t'.number c).value

namespace Posting

variable {p p' : Posting}

theorem WeighsAlike.refl (p : Posting) : p.WeighsAlike p := by
  unfold WeighsAlike
  cases p.weight?.value? with
  | none => exact .none
  | some w =>
    cases w with
    | none => exact .some .none
    | some a => exact .some (.some ⟨rfl, rfl⟩)

/-- Of postings that weigh alike, both have a weight or neither has one. -/
theorem WeighsAlike.exists_iff (h : p.WeighsAlike p') :
    (∃ w, p.weight?.value? = some w) ↔ ∃ w, p'.weight?.value? = some w := by
  unfold WeighsAlike at h
  generalize p.weight?.value? = w, p'.weight?.value? = w' at h
  cases h <;> simp

theorem WeighsAlike.weightIn_eq (h : p.WeighsAlike p') (c : Currency) :
    p.weightIn c = p'.weightIn c := by
  unfold WeighsAlike at h
  unfold weightIn
  generalize p.weight?.value? = w, p'.weight?.value? = w' at h
  cases h with
  | none => rfl
  | some h =>
    cases h with
    | none => rfl
    | some h => simp [Amount.inCurrency, h.1, h.2]

end Posting

section Alike

variable {qs : List Posting}

theorem weights_iff_of_alike (hperm : ps.Perm qs)
    (halike : List.Forall₂ Posting.WeighsAlike qs ps') :
    (∀ p ∈ ps, ∃ w, p.weight?.value? = some w) ↔ ∀ p ∈ ps', ∃ w, p.weight?.value? = some w := by
  simp only [hperm.mem_iff]
  clear hperm
  induction halike with
  | nil => rfl
  | cons h _ ih => rw [List.forall_mem_cons, List.forall_mem_cons, h.exists_iff, ih]

/-- Postings that weigh alike, in another order, have the same sum. -/
theorem sum_weightIn_of_alike (hperm : ps.Perm qs)
    (halike : List.Forall₂ Posting.WeighsAlike qs ps') (c : Currency) :
    (ps.map (·.weightIn c)).sum = (ps'.map (·.weightIn c)).sum := by
  rw [(hperm.map _).sum_eq]
  clear hperm
  induction halike with
  | nil => rfl
  | cons h _ ih =>
    rw [List.map_cons, List.map_cons, List.sum_cons, List.sum_cons, ih, h.weightIn_eq]

/-- Postings that weigh alike, in any order, have residuals of the same values. -/
theorem residualOf_alike (hps : AddExactly ps) (hps' : AddExactly ps') (hperm : ps.Perm qs)
    (halike : List.Forall₂ Posting.WeighsAlike qs ps') :
    Option.Rel Totals.Alike (residualOf ps).value? (residualOf ps').value? := by
  have hweights := weights_iff_of_alike hperm halike
  by_cases hall : ∀ p ∈ ps, ∃ w, p.weight?.value? = some w
  · obtain ⟨r, hr⟩ := hps.exists_residualOf hall
    obtain ⟨r', hr'⟩ := hps'.exists_residualOf (hweights.1 hall)
    rw [hr, hr']
    refine .some fun c => ?_
    rw [hps.value_number hr, hps'.value_number hr', sum_weightIn_of_alike hperm halike]
  · have hfails {qs : List Posting} (h : ¬∀ p ∈ qs, ∃ w, p.weight?.value? = some w) :
        (residualOf qs).value? = none :=
      Option.eq_none_iff_forall_ne_some.2 fun r hr => h (weights_of_residualOf hr)
    rw [hfails hall, hfails fun h => hall (hweights.2 h)]
    exact .none

end Alike

end DoubleEntry
