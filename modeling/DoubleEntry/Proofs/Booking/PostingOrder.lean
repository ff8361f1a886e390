import Mathlib.Data.List.Permutation
import DoubleEntry.Proofs.Booking.SideBySide

/-!
# Digits that depend on the order of the postings

What interpolation fills in is computed from running sums of what was written, and the places of a
running sum depend on the order of its terms. So where the sums do not round or overflow, the same
postings in another order give amounts of the same values, but not always with the same digits.

* `Transaction.terms`: what the postings weigh in a currency, without what is zero.
* `Transaction.Takes`: the currencies that a posting without units takes.
* `Unknown.quotientOf`: what a missing number is, if the terms are summed in some order.
* `reordered_iff`: when the digits are the same in every order of the postings.
-/

namespace DoubleEntry

/-- Every order of what is selected from a list comes from one of the list. -/
theorem exists_perm_filterMap {α β : Type} {f : α → Option β} {l : List β} {xs : List α}
    (h : l.Perm (xs.filterMap f)) : ∃ ys : List α, ys.Perm xs ∧ ys.filterMap f = l := by
  induction l generalizing xs with
  | nil => exact ⟨xs, .refl xs, List.nil_perm.1 h⟩
  | cons b l ih =>
    obtain ⟨a, ha, hab⟩ := List.mem_filterMap.1 (h.mem_iff.1 List.mem_cons_self)
    obtain ⟨before, after, rfl⟩ := List.append_of_mem ha
    have hmiddle : (b :: l).Perm (b :: (before ++ after).filterMap f) := by
      refine h.trans ((List.perm_middle.filterMap f).trans (.of_eq ?_))
      rw [List.filterMap_cons_some hab]
    obtain ⟨ys, hys, rfl⟩ := ih hmiddle.cons_inv
    exact ⟨a :: ys, (hys.cons a).trans List.perm_middle.symm, List.filterMap_cons_some hab⟩

theorem Decimal.neg_neg (a : Decimal) : a.neg.neg = a := by
  simp [neg]

theorem Decimal.Matches.div_neg {a b : Decimal} (h : a.Matches b) (d : Decimal) :
    a.neg.div d = b.neg.div d := by
  rcases h with rfl | ⟨ha, hb⟩
  · rfl
  · have hneg {n : Decimal} (hn : n.isZero) : n.neg.isZero := hn
    rw [Decimal.div, Decimal.div, if_pos (hneg ha), if_pos (hneg hb)]

namespace Posting

theorem fill_inj {p : Posting} {a b : Amount} : p.fill a = p.fill b ↔ a = b := by
  constructor
  · intro h
    have hamounts := congrArg Posting.amount? h
    exact Option.some.inj hamounts
  · rintro rfl
    rfl

theorem taking_inj {p : Posting} {t t' : Totals} {c : Currency} :
    p.taking t c = p.taking t' c ↔ t.number c = t'.number c := by
  rw [taking, taking, fill_inj, Amount.mk.injEq, and_iff_left rfl]
  constructor
  · intro h
    have hneg := congrArg Decimal.neg h
    rwa [Decimal.neg_neg, Decimal.neg_neg] at hneg
  · intro h
    rw [h]

end Posting

/-- The number for an unknown, if the terms from which it is computed are summed in this order. -/
def Unknown.quotientOf (u : Unknown) (terms : List Decimal) : Checked Decimal := do
  (← Decimal.sum terms).neg.div u.perUnit

namespace Transaction

/-- The numbers that the written postings weigh in a currency, without those that are zero. -/
def terms (t : Transaction) (c : Currency) : List Decimal :=
  (weightsIn c t.settled).filter (!·.isZero)

/-- A posting without units takes what is left over in the currency: something is, and no missing
number weighs in it. -/
def Takes (t : Transaction) (c : Currency) : Prop :=
  t.unknownsIn c = [] ∧ ((t.terms c).map Decimal.value).sum ≠ 0

/-- No missing number with a lesser name weighs in the same currency. -/
def IsFirst (t : Transaction) (u : Unknown) : Prop :=
  ¬∃ v ∈ t.unknownsIn u.currency, v.name < u.name

variable {t t' : Transaction} {c : Currency} {u : Unknown} {p : Posting}

theorem terms_eq_filterMap (t : Transaction) (c : Currency) : t.terms c =
    t.postings.filterMap fun p =>
      ((p.inContext t.sharedCurrency?).numberIn? c).filter (!·.isZero) := by
  rw [terms, weightsIn, settled, List.filterMap_map, List.filter_filterMap]
  rfl

theorem mem_terms {d : Decimal} (h : d ∈ t.terms c) :
    ∃ p ∈ t.settled, ∃ a ∈ p.weight?.value?.join, a.number = d := by
  obtain ⟨p, hp, hd⟩ := List.mem_filterMap.1 (List.mem_of_mem_filter h)
  obtain ⟨a, ha, rfl⟩ := Option.map_eq_some_iff.1 hd
  exact ⟨p, hp, a, (Option.filter_eq_some_iff.1 ha).1, rfl⟩

namespace Reorders

theorem terms_perm (h : t'.Reorders t) (c : Currency) : (t'.terms c).Perm (t.terms c) :=
  (h.settled_perm.filterMap _).filter _

theorem mem_unknownsIn (h : t'.Reorders t) : u ∈ t'.unknownsIn c ↔ u ∈ t.unknownsIn c :=
  ((h.postings.filterMap Posting.unknown?).filter _).mem_iff

theorem isFirst_iff (h : t'.Reorders t) : t'.IsFirst u ↔ t.IsFirst u := by
  unfold IsFirst
  simp only [h.mem_unknownsIn]

end Reorders

/-- Every order of the terms comes from one of the postings. -/
theorem exists_reorders {l : List Decimal} (h : l.Perm (t.terms c)) :
    ∃ t' : Transaction, t'.Reorders t ∧ t'.terms c = l := by
  rw [terms_eq_filterMap] at h
  obtain ⟨ps, hps, rfl⟩ := exists_perm_filterMap h
  have hreorders : Reorders { t with postings := ps } t := ⟨hps, rfl⟩
  refine ⟨{ t with postings := ps }, hreorders, ?_⟩
  rw [terms_eq_filterMap, hreorders.sharedCurrency?_eq]

section Fills

variable {written leftOver : Totals} {result : Interpolation} {solved : List (Currency × Decimal)}

theorem Fills.solve_eq (h : t.Fills false written leftOver solved result) :
    t.solve.run.value? = some (.ok (leftOver, solved)) :=
  Checked.bind_eq_ok.2 ⟨written, Checked.lift_eq_ok.2 (Checked.gives_false.1 h.sum),
    Checked.gives_false.1 h.solving⟩

/-- What was written in a currency is the sum of its terms. -/
theorem Fills.exists_sum (h : t.Fills false written leftOver solved result) (ht : t.AddsExactly)
    (c : Currency) : ∃ s, Decimal.sum (t.terms c) = .exact s ∧ (written.number c).Matches s := by
  have hwritten : (residualOf t.settled).value? = some written := Checked.gives_false.1 h.sum
  obtain ⟨s, hs⟩ := ht.written (weights_of_residualOf hwritten) c
  rw [← eq_number_of_sum hwritten hs]
  exact Decimal.exists_sum_filter hs

theorem Fills.number_leftOver_eq (h : t.Fills false written leftOver solved result)
    (c : Currency) :
    leftOver.number c = if t.unknownsIn c = [] then written.number c else .zero := by
  rw [number_solveNumbers h.solving]
  have hiff : (∃ m ∈ missingNumbers t.postings, (m.2.basis? m.1).map (·.1) = some c) ↔
      ∃ u, u ∈ t.unknownsIn c := by
    simpa using exists_basis_iff (t := t) (P := fun _ => True)
  by_cases hc : t.unknownsIn c = []
  · rw [if_pos hc, if_neg]
    rw [hiff, hc]
    simp
  · obtain ⟨u, hu⟩ := List.exists_mem_of_ne_nil _ hc
    rw [if_neg hc, if_pos (hiff.2 ⟨u, hu⟩)]

/-- The currencies that a posting without units takes are those in which something is left over. -/
theorem Fills.mem_nonzero_iff (h : t.Fills false written leftOver solved result)
    (ht : t.AddsExactly) : c ∈ leftOver.nonzero ↔ t.Takes c := by
  obtain ⟨s, hs, hmatches⟩ := h.exists_sum ht c
  rw [Totals.mem_nonzero_iff, h.number_leftOver_eq, Takes, ← Decimal.value_sum hs,
    ← hmatches.value_eq, Decimal.isZero_iff]
  by_cases hc : t.unknownsIn c = [] <;> simp [hc]

/-- What is taken is the sum of the terms. -/
theorem Fills.sum_of_takes (h : t.Fills false written leftOver solved result)
    (ht : t.AddsExactly) (hc : t.Takes c) :
    Decimal.sum (t.terms c) = .exact (leftOver.number c) := by
  have hmem := Totals.mem_nonzero_iff.1 ((h.mem_nonzero_iff ht).2 hc)
  obtain ⟨s, hs, hmatches⟩ := h.exists_sum ht c
  rw [h.number_leftOver_eq, if_pos hc.1] at hmem ⊢
  rw [hs, hmatches.eq hmem]

theorem Fills.inPlaceOf_open (h : t.Fills false written leftOver solved result)
    (hp : p.units = none) : t.inPlaceOf p = leftOver.nonzero.map (p.taking leftOver) := by
  rw [inPlaceOf_of_solve h.solve_eq, Posting.inContext_of_open hp, Posting.completed_of_open hp]

/-- In the place of a posting whose number is missing stands the posting with the quotient. -/
theorem Fills.inPlaceOf_unknown (h : t.Fills false written leftOver solved result)
    (hp : p ∈ t.postings) (hu : p.unknown? = some u) :
    ∃ number, (t.quotient written u).value? = some number ∧
      t.inPlaceOf p = [p.fill ⟨number, u.name⟩] := by
  have hmissing := (Posting.unknown?_eq_some.1 hu).1
  obtain ⟨number, hlookup, hnumber⟩ := h.lookup_solved (mem_unknowns.2 ⟨p, hp, hu⟩)
  refine ⟨number, Checked.gives_false.1 hnumber, ?_⟩
  rw [inPlaceOf_of_solve h.solve_eq, Posting.inContext_of_missingNumber hmissing, completed,
    Posting.missingNumber?_eq_some.1 hmissing]
  simp [hlookup]

/-- The first missing number in a currency is computed from the sum of the terms. -/
theorem Fills.quotient_of_isFirst (h : t.Fills false written leftOver solved result)
    (ht : t.AddsExactly) (hu : t.IsFirst u) :
    t.quotient written u = u.quotientOf (t.terms u.currency) := by
  obtain ⟨s, hs, hmatches⟩ := h.exists_sum ht u.currency
  rw [quotient, leftFor, if_neg hu, Unknown.quotientOf, hs, Checked.exact_bind, hmatches.div_neg]

end Fills

/-! ## What stands in the place of a posting -/

/-- Interpolation gives a result, and the sums are exact. -/
structure IsFilled (t : Transaction) : Prop where
  exact : t.AddsExactly
  result : ∃ r, t.interpolate.run.value? = some (.ok r)

namespace IsFilled

theorem exists_fills (h : t.IsFilled) :
    ∃ written leftOver solved result, t.Fills false written leftOver solved result := by
  obtain ⟨result, hresult⟩ := h.result
  obtain ⟨written, leftOver, solved, hfills⟩ := interpolate_gives.1 (Checked.gives_false.2 hresult)
  exact ⟨written, leftOver, solved, result, hfills⟩

theorem exists_sum (h : t.IsFilled) (c : Currency) : ∃ s, Decimal.sum (t.terms c) = .exact s := by
  obtain ⟨_, _, _, _, hfills⟩ := h.exists_fills
  obtain ⟨s, hs, -⟩ := hfills.exists_sum h.exact c
  exact ⟨s, hs⟩

/-- In the place of a posting without units stand legs that take the sums. -/
theorem exists_legs (h : t.IsFilled) (hp : p.units = none) : ∃ leftOver : Totals,
    t.inPlaceOf p = leftOver.nonzero.map (p.taking leftOver) ∧
    (∀ c, c ∈ leftOver.nonzero ↔ t.Takes c) ∧
    ∀ c, t.Takes c → Decimal.sum (t.terms c) = .exact (leftOver.number c) := by
  obtain ⟨_, leftOver, _, _, hfills⟩ := h.exists_fills
  exact ⟨leftOver, hfills.inPlaceOf_open hp, fun c => hfills.mem_nonzero_iff h.exact,
    fun c => hfills.sum_of_takes h.exact⟩

/-- In the place of a posting whose number is missing stands the posting with the quotient. -/
theorem exists_number (h : t.IsFilled) (hp : p ∈ t.postings) (hu : p.unknown? = some u) :
    ∃ number, t.inPlaceOf p = [p.fill ⟨number, u.name⟩] ∧
      (t.IsFirst u → (u.quotientOf (t.terms u.currency)).value? = some number) ∧
      (¬t.IsFirst u → (Decimal.zero.neg.div u.perUnit).value? = some number) := by
  obtain ⟨_, _, _, _, hfills⟩ := h.exists_fills
  obtain ⟨number, hnumber, hfill⟩ := hfills.inPlaceOf_unknown hp hu
  refine ⟨number, hfill, fun hfirst => ?_, fun hnot => ?_⟩
  · rwa [hfills.quotient_of_isFirst h.exact hfirst] at hnumber
  · rwa [quotient, leftFor, if_pos (not_not.1 hnot)] at hnumber

theorem isSolvable (h : t.IsFilled) (hp : p ∈ t.postings) (hc : p.missingNumber? = some c) :
    p.IsSolvable c := by
  obtain ⟨_, _, _, _, hfills⟩ := h.exists_fills
  exact hfills.isSolvable hp hc

theorem inPlaceOf_kept (h : t.IsFilled) (hunits : p.units.isSome) (hp : p.missingNumber? = none) :
    t.inPlaceOf p = [p.inContext t.sharedCurrency?] := by
  obtain ⟨_, _, _, _, hfills⟩ := h.exists_fills
  obtain ⟨-, hsome, hmissing⟩ := p.inContext_eq t.sharedCurrency?
  rw [inPlaceOf_of_solve hfills.solve_eq]
  exact Posting.completed_of_number (hsome.trans hunits) (hmissing.trans hp) _ _

end IsFilled

/-! ## Two orders -/

theorem Reorders.takes_iff (hr : t'.Reorders t) : t'.Takes c ↔ t.Takes c := by
  unfold Takes
  rw [List.eq_nil_iff_forall_not_mem, List.eq_nil_iff_forall_not_mem,
    ((hr.terms_perm c).map _).sum_eq]
  simp only [hr.mem_unknownsIn]

section Reorders

variable (hr : t'.Reorders t) (h : t.IsFilled) (h' : t'.IsFilled)
include hr h h'

/-- A posting without units gives the same exactly if what it takes sums to the same. -/
theorem inPlaceOf_open_iff (hp : p.units = none) : t'.inPlaceOf p = t.inPlaceOf p ↔
    ∀ c, t.Takes c → Decimal.sum (t'.terms c) = Decimal.sum (t.terms c) := by
  obtain ⟨leftOver, hlegs, hmem, hsum⟩ := h.exists_legs hp
  obtain ⟨leftOver', hlegs', hmem', hsum'⟩ := h'.exists_legs hp
  have hnonzero : leftOver'.nonzero = leftOver.nonzero := by
    refine Totals.nonzero_eq_of_mem fun c => ?_
    rw [hmem, hmem', hr.takes_iff]
  rw [hlegs, hlegs', hnonzero, List.map_inj_left]
  simp only [hmem]
  refine forall₂_congr fun c hc => ?_
  rw [hsum c hc, hsum' c (hr.takes_iff.2 hc), Checked.exact.injEq, Posting.taking_inj]

/-- A posting whose number is missing gives the same exactly if its quotient is the same, where it
is the first in its currency. -/
theorem inPlaceOf_unknown_iff (hp : p ∈ t.postings) (hu : p.unknown? = some u) :
    t'.inPlaceOf p = t.inPlaceOf p ↔ (t.IsFirst u →
      (u.quotientOf (t'.terms u.currency)).value? =
        (u.quotientOf (t.terms u.currency)).value?) := by
  obtain ⟨n, hfill, hfirst, hother⟩ := h.exists_number hp hu
  obtain ⟨n', hfill', hfirst', hother'⟩ := h'.exists_number (hr.postings.mem_iff.2 hp) hu
  rw [hr.isFirst_iff] at hfirst' hother'
  rw [hfill, hfill', List.singleton_inj, Posting.fill_inj, Amount.mk.injEq, and_iff_left rfl]
  by_cases hu : t.IsFirst u
  · rw [hfirst hu, hfirst' hu, Option.some_inj]
    exact ⟨fun heq _ => heq, fun heq => heq hu⟩
  · have hsame := (hother' hu).symm.trans (hother hu)
    exact iff_of_true (Option.some.inj hsame) fun hfirst => absurd hfirst hu

/-- The same stands in the place of each posting exactly if the same sums are taken and the same
quotients are found. -/
theorem inPlaceOf_eq_iff (hopen : ∃ p ∈ t.postings, p.units = none) :
    (∀ p ∈ t.postings, t'.inPlaceOf p = t.inPlaceOf p) ↔
      (∀ c, t.Takes c → Decimal.sum (t'.terms c) = Decimal.sum (t.terms c)) ∧
      ∀ u ∈ t.unknowns, t.IsFirst u → (u.quotientOf (t'.terms u.currency)).value? =
        (u.quotientOf (t.terms u.currency)).value? := by
  constructor
  · intro hsame
    obtain ⟨p, hp, hunits⟩ := hopen
    refine ⟨(inPlaceOf_open_iff hr h h' hunits).1 (hsame p hp), fun u hu => ?_⟩
    obtain ⟨q, hq, hqu⟩ := mem_unknowns.1 hu
    exact (inPlaceOf_unknown_iff hr h h' hq hqu).1 (hsame q hq)
  · rintro ⟨htaken, hfound⟩ p hp
    cases hunits : p.units with
    | none => exact (inPlaceOf_open_iff hr h h' hunits).2 htaken
    | some units =>
      cases hmissing : p.missingNumber? with
      | none =>
        have hsome : p.units.isSome := by rw [hunits, Option.isSome_some]
        rw [h.inPlaceOf_kept hsome hmissing, h'.inPlaceOf_kept hsome hmissing,
          hr.sharedCurrency?_eq]
      | some c =>
        obtain ⟨u, hu, -⟩ := Posting.exists_unknown hmissing (h.isSolvable hp hmissing)
        exact (inPlaceOf_unknown_iff hr h h' hp hu).2
          (hfound u (mem_unknowns.2 ⟨p, hp, hu⟩))

end Reorders

/-! ## All orders -/

section Orders

variable (hall : ∀ t' : Transaction, t'.Reorders t → t'.IsFilled)
include hall

theorem exists_sum_of_perm {l : List Decimal} (hl : l.Perm (t.terms c)) :
    ∃ s, Decimal.sum l = .exact s := by
  obtain ⟨t', hr, rfl⟩ := exists_reorders hl
  exact (hall t' hr).exists_sum c

/-- If all orders of the postings are interpolated, then they are all filled in the same exactly if
the order of the terms does not matter to what is taken and found. -/
theorem reorders_same_iff (hopen : ∃ p ∈ t.postings, p.units = none) :
    (∀ t' : Transaction, t'.Reorders t → ∀ p ∈ t.postings, t'.inPlaceOf p = t.inPlaceOf p) ↔
      (∀ c, t.Takes c → ¬Decimal.OrderMatters (t.terms c)) ∧
      ∀ u ∈ t.unknowns, t.IsFirst u → ∀ l, l.Perm (t.terms u.currency) →
        (u.quotientOf l).value? = (u.quotientOf (t.terms u.currency)).value? := by
  have h := hall t ⟨.refl _, rfl⟩
  have htidy (c : Currency) : ∀ d ∈ t.terms c, d.Tidy := fun d => Decimal.tidy_of_mem_filter
  have hsums (c : Currency) := Decimal.sum_perm_iff (htidy c) fun l => exists_sum_of_perm hall
  constructor
  · intro hsame
    refine ⟨fun c hc => (hsums c).1 fun l hl => ?_, fun u hu hfirst l hl => ?_⟩
    · obtain ⟨t', hr, rfl⟩ := exists_reorders hl
      exact ((inPlaceOf_eq_iff hr h (hall t' hr) hopen).1 (hsame t' hr)).1 c hc
    · obtain ⟨t', hr, rfl⟩ := exists_reorders hl
      exact ((inPlaceOf_eq_iff hr h (hall t' hr) hopen).1 (hsame t' hr)).2 u hu hfirst
  · rintro ⟨htaken, hfound⟩ t' hr
    refine (inPlaceOf_eq_iff hr h (hall t' hr) hopen).2 ⟨fun c hc => ?_, fun u hu hfirst => ?_⟩
    · exact (hsums c).2 (htaken c hc) _ (hr.terms_perm c)
    · exact hfound u hu hfirst _ (hr.terms_perm u.currency)

end Orders

/-- If interpolation is exact, so are its sums. -/
theorem AddsExactly.of_exact {result : Interpolation}
    (h : t.interpolate.run = .exact (.ok result)) : t.AddsExactly := by
  obtain ⟨written, leftOver, solved, hfills⟩ := interpolate_gives.1 (Checked.gives_true.2 h)
  have hsolve : t.solve.run = .exact (.ok (leftOver, solved)) := by
    rw [← Checked.gives_true]
    exact Checked.bind_gives_ok.2 ⟨written, Checked.lift_gives_ok.2 hfills.sum, hfills.solving⟩
  refine ⟨.of_exact (Checked.gives_true.1 hfills.sum), fun s hs => ?_⟩
  obtain rfl : (leftOver, solved) = s := by simpa [hsolve] using hs
  have hresidual := Checked.gives_true.1 hfills.residual
  rw [hfills.transaction] at hresidual
  exact .of_exact hresidual

end Transaction

/-- Whether inferred amounts depend on the order of the postings. Suppose that one posting of a
transaction has no units. As long as no sum rounds or overflows, the same postings in any two orders
either both fail, or both are interpolated, and then what was filled in has the same values. If the
sums are exact in every order, then the digits are also the same in every order exactly if the order
does not matter to the sums that the posting without units takes, nor to the quotients that are
found for missing numbers. -/
theorem reordered_iff {t : Transaction} (hopen : t.postings.countP (·.units.isNone) = 1) :
    (∀ t' : Transaction, t'.Reorders t → t.AddsExactly → t'.AddsExactly →
      Checked.SameOutcome (fun r r' => t.Replaces r ∧ t'.Replaces r' ∧
          ∀ p, List.Forall₂ Posting.FilledAlike (t.inPlaceOf p) (t'.inPlaceOf p))
        t.interpolate.run.value? t'.interpolate.run.value?) ∧
    ((∀ t' : Transaction, t'.Reorders t → t'.AddsExactly) →
      ∀ r, t.interpolate.run.value? = some (.ok r) →
      ((∀ t' : Transaction, t'.Reorders t → ∀ p ∈ t.postings, t'.inPlaceOf p = t.inPlaceOf p) ↔
        (∀ c, t.Takes c → ¬Decimal.OrderMatters (t.terms c)) ∧
        ∀ u ∈ t.unknowns, t.IsFirst u → ∀ l, l.Perm (t.terms u.currency) →
          (u.quotientOf l).value? = (u.quotientOf (t.terms u.currency)).value?)) := by
  refine ⟨fun t' hr ht ht' => Transaction.interpolate_alike hr ht ht', fun hexact r hresult => ?_⟩
  obtain ⟨p, hp, hunits⟩ := List.countP_pos_iff.1 (hopen ▸ Nat.one_pos)
  refine Transaction.reorders_same_iff (fun t' hr => ⟨hexact t' hr, ?_⟩)
    ⟨p, hp, Option.isNone_iff_eq_none.1 hunits⟩
  have houtcome :=
    Transaction.interpolate_alike hr (hexact t ⟨.refl _, rfl⟩) (hexact t' hr)
  rw [hresult] at houtcome
  generalize t'.interpolate.run.value? = outcome at houtcome ⊢
  cases houtcome with
  | result => exact ⟨_, rfl⟩

/-- A meal with a tip paid by card, and a taxi paid in cash in another currency. -/
def eveningOut : Transaction where
  postings := [
    .plain "Expenses:Food" (.written "12.50") "USD",
    .plain "Expenses:Food" (.written "2.50") "USD",
    .plain "Expenses:Taxi" (.written "8.40") "EUR",
    { account := "Assets:Cash", units := some (.currencyOnly "EUR") },
    { account := "Assets:Card" }]

theorem reordered_iff_eveningOut :
    eveningOut.postings.countP (·.units.isNone) = 1 ∧
    (∀ t' : Transaction, t'.Reorders eveningOut → t'.AddsExactly) ∧
    (∃ r, eveningOut.interpolate.run.value? = some (.ok r) ∧
      r.transaction.postings.map (·.amount?.map Amount.text) =
        [some "12.50 USD", some "2.50 USD", some "8.40 EUR", some "-8.40 EUR",
          some "-15.00 USD"]) ∧
    ∀ t' : Transaction, t'.Reorders eveningOut → ∀ p ∈ eveningOut.postings,
      t'.inPlaceOf p = eveningOut.inPlaceOf p := by
  have hopen : eveningOut.postings.countP (·.units.isNone) = 1 := by decide +kernel
  obtain ⟨r, hr, htexts⟩ : ∃ r, eveningOut.interpolate.run = .exact (.ok r) ∧
      r.transaction.postings.map (·.amount?.map Amount.text) =
        [some "12.50 USD", some "2.50 USD", some "8.40 EUR", some "-8.40 EUR",
          some "-15.00 USD"] :=
    exists_exact_of_any (by decide +kernel)
  have horders : ∀ ps ∈ eveningOut.postings.permutations', ∃ outcome,
      (Transaction.interpolate { eveningOut with postings := ps }).run = .exact outcome ∧
        outcome.toOption.any fun _ => True := by
    decide +kernel
  have hexact : ∀ t' : Transaction, t'.Reorders eveningOut → t'.AddsExactly := by
    intro t' hreorders
    obtain ⟨r', hr', -⟩ := exists_exact_of_any
      (horders t'.postings (List.mem_permutations'.2 hreorders.postings))
    rw [← hreorders.rest] at hr'
    exact .of_exact hr'
  have hvalue : eveningOut.interpolate.run.value? = some (.ok r) := by
    rw [hr, Checked.value?_exact]
  refine ⟨hopen, hexact, ⟨r, hvalue, htexts⟩, ((reordered_iff hopen).2 hexact r hvalue).2 ⟨?_, ?_⟩⟩
  · -- All numbers have two places.
    have hscales : ∀ p ∈ eveningOut.settled, ∀ a ∈ p.weight?.value?.join, a.number.scale = 2 := by
      decide +kernel
    intro c _
    refine Decimal.not_orderMatters_of_scale (s := 2) fun d hd => ?_
    obtain ⟨p, hp, a, ha, rfl⟩ := Transaction.mem_terms hd
    exact hscales p hp a ha
  · -- The only missing number is computed from a single one.
    have hunknowns : eveningOut.unknowns = [⟨"EUR", "EUR", .one, .zero⟩] := by decide +kernel
    have hterms : eveningOut.terms "EUR" = [.written "8.40"] := by decide +kernel
    intro u hu _ l hl
    rw [hunknowns, List.mem_singleton] at hu
    subst hu
    simp only at hl ⊢
    rw [hterms] at hl ⊢
    rw [List.perm_singleton.1 hl]

/-- A dollar, and half a dollar that comes and goes. -/
def dollarFirst : Transaction where
  postings := [
    .plain "Assets:Bank" (.ofNat 1) "USD",
    .plain "Assets:Bank" (.written "0.50") "USD",
    .plain "Assets:Bank" (.written "-0.50") "USD",
    { account := "Equity:Opening" }]

/-- The same with the dollar after the halves. -/
def dollarLast : Transaction where
  postings := [
    .plain "Assets:Bank" (.written "0.50") "USD",
    .plain "Assets:Bank" (.written "-0.50") "USD",
    .plain "Assets:Bank" (.ofNat 1) "USD",
    { account := "Equity:Opening" }]

/-- Nothing rounds in either order, but the amounts that are filled in have other digits. -/
theorem interpolated_dollarLast :
    dollarFirst.postings.countP (·.units.isNone) = 1 ∧ dollarLast.Reorders dollarFirst ∧
    (∃ r, dollarFirst.interpolate.run = .exact (.ok r) ∧
      r.transaction.postings.map (·.amount?.map Amount.text) =
        [some "1 USD", some "0.50 USD", some "-0.50 USD", some "-1.00 USD"]) ∧
    ∃ r, dollarLast.interpolate.run = .exact (.ok r) ∧
      r.transaction.postings.map (·.amount?.map Amount.text) =
        [some "0.50 USD", some "-0.50 USD", some "1 USD", some "-1 USD"] := by
  refine ⟨by decide +kernel, ⟨by decide +kernel, rfl⟩, ?_, ?_⟩
  · exact exists_exact_of_any (by decide +kernel)
  · exact exists_exact_of_any (by decide +kernel)

end DoubleEntry
