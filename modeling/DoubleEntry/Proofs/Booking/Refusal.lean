import Mathlib.Logic.Function.Basic
import DoubleEntry.Proofs.Booking.Unknowns

/-!
# Refusals

Interpolation refuses a transaction for one of four reasons, all told from what was written. Two
postings with a currency alone stop it only if they name the same currency. If they name different
ones and still weigh in the same currency, then it goes on, although one of the two numbers could be
anything.

* `Transaction.IsRefused`: the reasons.
* `Transaction.Balances`: numbers for the missing ones with which nothing is left over where they
  weigh.
* `Transaction.WeighsApart`: each missing number weighs in a currency of its own.
* `Transaction.IsDetermined`, `Transaction.IsFree`: only one number does, or any number does.
* `refused_iff`: when interpolation refuses, and when the numbers are determined where it does not.
-/

namespace DoubleEntry

/-! ## Reasons -/

/-- A reason not to fill in the missing amounts of a transaction. -/
inductive Transaction.IsRefused (t : Transaction) : Prop
  /-- Nothing tells the currency of a number alone. -/
  | noCurrency {p : Posting} (hp : p ∈ t.postings) (h : p.LacksCurrency t.sharedCurrency?)
  /-- Two postings name one currency alone. -/
  | sameName (h : ¬(t.postings.filterMap Posting.missingNumber?).Nodup)
  /-- Two postings have nothing written. -/
  | severalOpen (h : 1 < t.postings.countP (·.units.isNone))
  /-- Nothing tells the weight of one unit, or it is zero, where a number is missing. -/
  | noNumber {p : Posting} {c : Currency} (hp : p ∈ t.postings) (hc : p.missingNumber? = some c)
      (h : ¬p.IsSolvable c)

/-- Interpolation that goes through all of its steps has met no reason to stop. -/
theorem Transaction.Fills.not_isRefused {strict : Bool} {t : Transaction}
    {written leftOver : Totals} {solved : List (Currency × Decimal)} {result : Interpolation}
    (h : t.Fills strict written leftOver solved result) : ¬t.IsRefused := by
  intro hrefused
  cases hrefused with
  | noCurrency hp hlacks => exact h.hasCurrency _ hp hlacks
  | sameName hname => exact hname h.nodup
  | severalOpen hopen => exact absurd h.openCount (Nat.not_le.2 hopen)
  | noNumber hp hc hsolvable => exact hsolvable (h.isSolvable hp hc)

/-- Each error of interpolation has its reason. -/
theorem Transaction.isRefused_of_error {strict : Bool} {t : Transaction}
    {error : InterpolationError} (h : t.interpolate.run.Gives strict (.error error)) :
    t.IsRefused := by
  unfold interpolate at h
  rcases Checked.bind_gives_error.1 h with hcurrency | ⟨postings, hpostings, h⟩
  · obtain ⟨p, hp, hlacks⟩ := Checked.exists_of_mapM_gives_error hcurrency
    exact .noCurrency hp (Posting.lacksCurrency_of_error hlacks)
  obtain ⟨-, rfl⟩ :=
    (Checked.mapM_gives_ok fun _ _ => Posting.withCurrency_gives).1 hpostings
  rcases Checked.bind_gives_error.1 h with hsum | ⟨written, -, h⟩
  · exact absurd hsum Checked.lift_not_gives_error
  simp only at h
  split at h
  · next c count hrepeated =>
    refine .sameName fun hnodup => ?_
    have hnone := repeatedCurrency?_missingNumbers.2 hnodup
    rw [← t.missingNumbers_settled] at hnone
    exact absurd (hnone.symm.trans hrepeated) (by simp)
  split at h
  · next hcount => exact .severalOpen (t.countP_settled ▸ hcount)
  rcases Checked.bind_gives_error.1 h with hsolving | ⟨⟨leftOver, solved⟩, -, h⟩
  · obtain ⟨⟨c, p⟩, hm, s, hsolve⟩ := Checked.exists_of_foldlM_gives_error hsolving
    obtain ⟨hp, hc⟩ := mem_missingNumbers.1 (t.missingNumbers_settled ▸ hm)
    exact .noNumber hp hc (not_isSolvable_of_error hsolve)
  rcases Checked.bind_gives_error.1 h with hsum | ⟨total, -, h⟩
  · exact absurd hsum Checked.lift_not_gives_error
  · exact absurd h Checked.pure_not_gives_error

/-! ## Determined numbers -/

namespace Transaction

variable {t : Transaction} {u v : Unknown} {numbers : Unknown → ℚ}

/-- No two postings with a currency alone weigh in the same currency. -/
def WeighsApart (t : Transaction) : Prop := (t.postings.filterMap Posting.weighsIn?).Nodup

/-- With these numbers for the missing ones nothing is left over in the currencies in which they
weigh. -/
def Balances (t : Transaction) (numbers : Unknown → ℚ) : Prop :=
  ∀ u ∈ t.unknowns, t.balance numbers u.currency = 0

/-- There are numbers that balance the transaction, and no others do. -/
def IsDetermined (t : Transaction) : Prop :=
  ∃ numbers, t.Balances numbers ∧
    ∀ others, t.Balances others → ∀ u ∈ t.unknowns, others u = numbers u

/-- Whatever the number for a posting, the transaction can be balanced. -/
def IsFree (t : Transaction) (u : Unknown) : Prop :=
  ∀ x, ∃ numbers, t.Balances numbers ∧ numbers u = x

/-- Another number for one posting changes the balance in the currency in which it weighs. -/
theorem balance_update (hnodup : t.unknowns.Nodup) (hu : u ∈ t.unknowns) (x : ℚ)
    (currency : Currency) :
    t.balance (Function.update numbers u x) currency = t.balance numbers currency +
      if u.currency = currency then (x - numbers u) * u.perUnit.value else 0 := by
  have hother : ∀ {l : List Unknown}, u ∉ l →
      l.map (fun v => v.weight (Function.update numbers u x v)) =
        l.map fun v => v.weight (numbers v) := by
    intro l hl
    refine List.map_congr_left fun v hv => ?_
    rw [Function.update_of_ne]
    rintro rfl
    exact hl hv
  unfold balance
  by_cases hcurrency : u.currency = currency
  · have hperm := List.perm_cons_erase (mem_unknownsIn.2 ⟨hu, hcurrency⟩)
    have hrest : u ∉ (t.unknownsIn currency).erase u := (hnodup.filter _).not_mem_erase
    rw [if_pos hcurrency, (hperm.map _).sum_eq, (hperm.map _).sum_eq, List.map_cons, List.map_cons,
      List.sum_cons, List.sum_cons, hother hrest, Function.update_self, Unknown.weight,
      Unknown.weight]
    ring
  · rw [if_neg hcurrency, hother fun hmem => hcurrency (mem_unknownsIn.1 hmem).2, add_zero]

/-- What the transaction weighs in a currency without the missing numbers. -/
def owed (t : Transaction) (currency : Currency) : ℚ :=
  (t.settled.map (·.weightIn currency)).sum + ((t.unknownsIn currency).map (·.added.value)).sum

/-- There are numbers that balance the transaction. -/
theorem exists_balances (hnames : (t.unknowns.map (·.name)).Nodup)
    (hsolvable : ∀ u ∈ t.unknowns, u.perUnit.value ≠ 0) : ∃ numbers, t.Balances numbers := by
  -- Where several are missing, the one with the least name takes all, as in interpolation.
  refine ⟨fun u => if ∃ v ∈ t.unknownsIn u.currency, v.name < u.name then 0 else
    -t.owed u.currency / u.perUnit.value, fun u hu => ?_⟩
  have htaken : ∀ v ∈ t.unknownsIn u.currency,
      v.weight (if ∃ w ∈ t.unknownsIn v.currency, w.name < v.name then 0 else
        -t.owed v.currency / v.perUnit.value) =
      (if ∃ w ∈ t.unknownsIn v.currency, w.name < v.name then 0 else -t.owed u.currency) +
        v.added.value := by
    intro v hv
    obtain ⟨hmem, hcurrency⟩ := mem_unknownsIn.1 hv
    rw [Unknown.weight, ite_mul, zero_mul, div_mul_cancel₀ _ (hsolvable v hmem), hcurrency]
  rw [balance, List.map_congr_left htaken, List.sum_map_add, sum_of_least hnames hu, owed]
  ring

/-- Where no two missing numbers weigh in the same currency, the balance tells them all. -/
theorem isDetermined_of_nodup (hnames : (t.unknowns.map (·.name)).Nodup)
    (hsolvable : ∀ u ∈ t.unknowns, u.perUnit.value ≠ 0)
    (hcurrencies : (t.unknowns.map (·.currency)).Nodup) : t.IsDetermined := by
  obtain ⟨numbers, hnumbers⟩ := exists_balances hnames hsolvable
  refine ⟨numbers, hnumbers, fun others hothers u hu => ?_⟩
  have halone : t.unknownsIn u.currency = [u] := by
    have hnodup : (t.unknownsIn u.currency).Nodup := (hnames.of_map _).filter _
    refine List.perm_singleton.1 ((List.perm_ext_iff_of_nodup hnodup (List.nodup_singleton u)).2 ?_)
    intro v
    rw [mem_unknownsIn, List.mem_singleton]
    constructor
    · rintro ⟨hv, hcurrency⟩
      exact List.inj_on_of_nodup_map hcurrencies hv hu hcurrency
    · rintro rfl
      exact ⟨hu, rfl⟩
  have hequal := (hothers u hu).trans (hnumbers u hu).symm
  rw [balance, balance, halone] at hequal
  simpa [Unknown.weight, hsolvable u hu] using hequal

/-- Of two missing numbers that weigh in the same currency each can be anything, for the other makes
up for it. -/
theorem isFree_of_currency_eq (hnames : (t.unknowns.map (·.name)).Nodup)
    (hsolvable : ∀ u ∈ t.unknowns, u.perUnit.value ≠ 0) (hu : u ∈ t.unknowns)
    (hv : v ∈ t.unknowns) (hne : v ≠ u) (hcurrency : v.currency = u.currency) : t.IsFree u := by
  intro x
  obtain ⟨numbers, hnumbers⟩ := exists_balances hnames hsolvable
  have hnodup : t.unknowns.Nodup := hnames.of_map _
  -- What `u` weighs more than before, `v` weighs less.
  refine ⟨Function.update (Function.update numbers u x) v
    (numbers v - (x - numbers u) * u.perUnit.value / v.perUnit.value), fun w hw => ?_, ?_⟩
  · rw [balance_update hnodup hv, balance_update hnodup hu, hnumbers w hw, hcurrency,
      Function.update_of_ne hne]
    split
    · have hper := hsolvable v hv
      field_simp
      ring
    · simp
  · rw [Function.update_of_ne hne.symm, Function.update_self]

section Fills

variable {strict : Bool} {written leftOver : Totals} {solved : List (Currency × Decimal)}
  {result : Interpolation}

theorem Fills.value_perUnit_ne_zero (h : t.Fills strict written leftOver solved result) :
    ∀ u ∈ t.unknowns, u.perUnit.value ≠ 0 := by
  intro u hu
  obtain ⟨p, hp, hpu⟩ := mem_unknowns.1 hu
  exact Posting.value_perUnit_ne_zero hpu fun c hc => h.isSolvable hp hc

theorem Fills.weighsApart_iff (h : t.Fills strict written leftOver solved result) :
    t.WeighsApart ↔ (t.unknowns.map (·.currency)).Nodup := by
  rw [map_currency_unknowns fun p hp c => h.isSolvable hp]
  rfl

theorem Fills.exists_of_not_weighsApart (h : t.Fills strict written leftOver solved result)
    (htogether : ¬t.WeighsApart) :
    ∃ u ∈ t.unknowns, ∃ v ∈ t.unknowns, v.currency = u.currency ∧ v ≠ u := by
  rw [h.weighsApart_iff, List.nodup_map_iff_inj_on (h.nodup_names.of_map _)] at htogether
  push Not at htogether
  obtain ⟨v, hv, u, hu, hcurrency, hne⟩ := htogether
  exact ⟨u, hu, v, hv, hcurrency, hne⟩

end Fills

end Transaction

/-- Interpolation returns an error exactly if there is a reason to refuse the transaction. Where it
goes on, the missing numbers are determined if no two postings with a currency alone weigh in the
same currency, and if two do, then the number of one of them can be anything. Two such postings are
a reason to refuse it if all that weigh in the same currency also name the same one. -/
theorem refused_iff {t : Transaction} {outcome : Except InterpolationError Interpolation}
    (h : t.interpolate.run.value? = some outcome) :
    ((∃ error, outcome = .error error) ↔ t.IsRefused) ∧
    (¬t.IsRefused → (t.WeighsApart → t.IsDetermined) ∧
      (¬t.WeighsApart → ∃ u ∈ t.unknowns, t.IsFree u)) ∧
    ((∀ p ∈ t.postings, ∀ q ∈ t.postings, p.weighsIn?.isSome → p.weighsIn? = q.weighsIn? →
      p.missingNumber? = q.missingNumber?) → ¬t.WeighsApart → t.IsRefused) := by
  cases outcome with
  | error error =>
    have hrefused := Transaction.isRefused_of_error (Checked.gives_false.2 h)
    exact ⟨iff_of_true ⟨error, rfl⟩ hrefused, fun hnot => absurd hrefused hnot,
      fun _ _ => hrefused⟩
  | ok result =>
    obtain ⟨written, leftOver, solved, hfills⟩ :=
      Transaction.interpolate_gives.1 (Checked.gives_false.2 h)
    have hnames := hfills.nodup_names
    have hper := hfills.value_perUnit_ne_zero
    refine ⟨iff_of_false (by simp) hfills.not_isRefused, fun _ => ⟨fun happart => ?_, ?_⟩, ?_⟩
    · exact Transaction.isDetermined_of_nodup hnames hper (hfills.weighsApart_iff.1 happart)
    · intro htogether
      obtain ⟨u, hu, v, hv, hcurrency, hne⟩ := hfills.exists_of_not_weighsApart htogether
      exact ⟨u, hu, Transaction.isFree_of_currency_eq hnames hper hu hv hne hcurrency⟩
    · intro hsame htogether
      obtain ⟨u, hu, v, hv, hcurrency, hne⟩ := hfills.exists_of_not_weighsApart htogether
      obtain ⟨p, hp, hpu⟩ := Transaction.mem_unknowns.1 hu
      obtain ⟨q, hq, hqv⟩ := Transaction.mem_unknowns.1 hv
      have hweighs : q.weighsIn? = p.weighsIn? := by
        rw [Posting.weighsIn?_of_unknown hqv, Posting.weighsIn?_of_unknown hpu, hcurrency]
      have hname := hsame q hq p hp (by simp [Posting.weighsIn?_of_unknown hqv]) hweighs
      rw [(Posting.unknown?_eq_some.1 hqv).1, (Posting.unknown?_eq_some.1 hpu).1,
        Option.some_inj] at hname
      exact absurd (List.inj_on_of_nodup_map hnames hv hu hname) hne

/-- Euros and dollars of which only the currency is written, where the euros were bought for
dollars. -/
def ambiguousExchange : Transaction where
  postings := [
    { account := "Assets:Wallet"
      units := some (.currencyOnly "EUR")
      price := some (.unit ⟨.written "1.25", "USD"⟩) },
    { account := "Assets:Cash", units := some (.currencyOnly "USD") },
    .plain "Assets:Bank" (.written "-125.00") "USD"]

theorem interpolate_ambiguousExchange :
    ∃ result, ambiguousExchange.interpolate.run = .exact (.ok result) ∧
      result.transaction.postings.map (·.amount?.map Amount.text) =
        [some "100 EUR", some "0 USD", some "-125.00 USD"] ∧
      result.residual.toList.map (fun e => (e.1, e.2.text)) = [("USD", "0.00")] := by
  have hsettled : ambiguousExchange.postings.mapM
      (·.withCurrency ambiguousExchange.sharedCurrency?) = pure ambiguousExchange.settled := rfl
  have hmissing : missingNumbers ambiguousExchange.settled = _ :=
    missingNumbers_of_pairwise (by decide +kernel)
  refine exists_exact_of_any ?_
  unfold Transaction.interpolate
  rw [hsettled, pure_bind]
  simp only [hmissing]
  decide +kernel

theorem refused_iff_ambiguousExchange :
    (∃ result, ambiguousExchange.interpolate.run.value? = some (.ok result)) ∧
      ¬ambiguousExchange.IsRefused ∧
      ∃ u ∈ ambiguousExchange.unknowns, ambiguousExchange.IsFree u := by
  obtain ⟨result, hresult, -⟩ := interpolate_ambiguousExchange
  have hvalue : ambiguousExchange.interpolate.run.value? = some (.ok result) := by
    rw [hresult, Checked.value?_exact]
  obtain ⟨hrefused, hgoes, -⟩ := refused_iff hvalue
  have hnot : ¬ambiguousExchange.IsRefused := by
    rw [← hrefused]
    simp
  have htogether : ¬ambiguousExchange.WeighsApart := by
    unfold Transaction.WeighsApart
    decide +kernel
  exact ⟨⟨result, hvalue⟩, hnot, (hgoes hnot).2 htogether⟩

/-- Both of the missing numbers weigh in dollars. Interpolation finds 100 euros and no dollars, but
no euros and 125 dollars balance the transaction as well. -/
theorem interpolated_ambiguousExchange :
    ambiguousExchange.postings.map Posting.weighsIn? = [some "USD", some "USD", none] ∧
    (∃ result, ambiguousExchange.interpolate.run = .exact (.ok result) ∧
      result.transaction.postings.map (·.amount?.map Amount.text) =
        [some "100 EUR", some "0 USD", some "-125.00 USD"] ∧
      result.residual.toList.map (fun e => (e.1, e.2.text)) = [("USD", "0.00")]) ∧
    ∃ residual, residualOf
        (List.zipWith (fun p units => { p with units := some (.complete units) })
          ambiguousExchange.postings
          [⟨.zero, "EUR"⟩, ⟨.ofNat 125, "USD"⟩, ⟨.written "-125.00", "USD"⟩]) = .exact residual ∧
      residual.toList.map (fun e => (e.1, e.2.text)) = [("USD", "0.00")] := by
  refine ⟨?_, interpolate_ambiguousExchange, ?_⟩
  · decide +kernel
  · decide +kernel

end DoubleEntry
