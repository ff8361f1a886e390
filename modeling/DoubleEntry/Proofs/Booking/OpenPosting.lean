import DoubleEntry.Proofs.Booking.Residual
import DoubleEntry.Proofs.Booking.Review
import DoubleEntry.Proofs.Validation

/-!
# A posting without units balances its transaction

If nothing is missing but the units of one posting, interpolation puts legs in its place that take
what the other postings leave over, one for each currency. After that nothing is left over, and a
tolerance is never negative, so the transaction balances whatever its tolerances are.

* `Posting.taking`: the leg that takes what is left over in a currency.
* `Totals.nonzero`: the currencies in which something is left over.
* `value_residual_taken`: with such legs added, nothing is left over.
* `openPosting_balances`: what interpolation makes of the transaction, and how it is validated.
-/

namespace DoubleEntry

/-! ## What is left over -/

namespace Totals

variable {t : Totals} {c : Currency} {n : Decimal}

/-- The currencies whose number is not zero, in ascending order. -/
def nonzero (t : Totals) : List Currency := (t.toList.filter (!·.2.isZero)).map (·.1)

theorem number_of_mem (h : (c, n) ∈ t.toList) : t.number c = n := by
  rw [Std.TreeMap.mem_toList_iff_getElem?_eq_some] at h
  rw [number, Std.TreeMap.getD_eq_getD_getElem?, h, Option.getD_some]

/-- The currencies whose numbers are selected, where no number is as good as zero. -/
theorem mem_currencies_filter {p : Currency × Decimal → Bool} (hzero : p (c, .zero) = false) :
    c ∈ (t.toList.filter p).map (·.1) ↔ p (c, t.number c) := by
  simp only [List.mem_map, List.mem_filter, Prod.exists, exists_and_right, exists_eq_right]
  constructor
  · rintro ⟨n, hmem, hn⟩
    rwa [number_of_mem hmem]
  · intro h
    cases hn : t[c]? with
    | none =>
      rw [number, Std.TreeMap.getD_eq_getD_getElem?, hn, Option.getD_none, hzero] at h
      exact absurd h Bool.false_ne_true
    | some n =>
      have hmem : (c, n) ∈ t.toList := Std.TreeMap.mem_toList_iff_getElem?_eq_some.2 hn
      rw [number_of_mem hmem] at h
      exact ⟨n, hmem, h⟩

theorem pairwise_currencies_filter (t : Totals) (p : Currency × Decimal → Bool) :
    ((t.toList.filter p).map (·.1)).Pairwise (· < ·) := by
  refine List.pairwise_map.2 (List.Pairwise.filter _ ?_)
  refine Std.TreeMap.ordered_keys_toList.imp fun {a b} h => ?_
  exact compareOfLessAndEq_eq_lt.1 h

theorem mem_nonzero_iff : c ∈ t.nonzero ↔ ¬(t.number c).isZero := by
  rw [nonzero, mem_currencies_filter rfl, Bool.not_eq_true', Bool.not_eq_true]

theorem pairwise_nonzero (t : Totals) : t.nonzero.Pairwise (· < ·) :=
  t.pairwise_currencies_filter _

theorem nodup_of_pairwise {l : List Currency} (h : l.Pairwise (· < ·)) : l.Nodup := by
  refine h.imp ?_
  rintro a _ hlt rfl
  exact String.lt_irrefl a hlt

theorem nodup_nonzero (t : Totals) : t.nonzero.Nodup := nodup_of_pairwise t.pairwise_nonzero

/-- Currencies in ascending order are told apart by which they are. -/
theorem eq_of_pairwise {l l' : List Currency} (h : l.Pairwise (· < ·)) (h' : l'.Pairwise (· < ·))
    (hmem : ∀ c, c ∈ l ↔ c ∈ l') : l = l' := by
  refine List.Perm.eq_of_pairwise ?_ h h'
    ((List.perm_ext_iff_of_nodup (nodup_of_pairwise h) (nodup_of_pairwise h')).2 hmem)
  intro a b _ _ hab hba
  exact absurd (String.lt_trans hab hba) (String.lt_irrefl a)

end Totals

/-! ## Legs -/

namespace Posting

variable {p : Posting}

/-- The leg that takes what is left over in a currency. It has no cost or price, whatever the
posting in whose place it stands may have. -/
def taking (p : Posting) (leftOver : Totals) (c : Currency) : Posting :=
  { p with cost := none, price := none }.fill ⟨(leftOver.number c).neg, c⟩

theorem weightIn_taking (p : Posting) (leftOver : Totals) (c c' : Currency) :
    (p.taking leftOver c).weightIn c' = if c = c' then -(leftOver.number c).value else 0 := by
  have hweight : (p.taking leftOver c).weight? = .exact (some ⟨(leftOver.number c).neg, c⟩) := rfl
  rw [weightIn_of_exact hweight, Option.elim_some, Amount.inCurrency, Decimal.value_neg]

/-- A posting without units weighs nothing. -/
theorem weight?_of_open (h : p.units = none) : p.weight? = .exact none := by
  rw [weight?, amount?, h]
  rfl

theorem inContext_of_open (h : p.units = none) (shared : Option Currency) :
    p.inContext shared = p := by
  rw [inContext, h]

/-- In the place of a posting without units stand the legs that take what is left over. -/
theorem completed_of_open (h : p.units = none) (residual : Totals)
    (solved : List (Currency × Decimal)) :
    (completed residual solved p).map (·.1) = residual.nonzero.map (p.taking residual) := by
  rw [completed, h, Totals.nonzero, List.map_map, List.map_map]
  refine List.map_congr_left fun ⟨c, n⟩ he => ?_
  have hnumber : residual.number c = n := Totals.number_of_mem (List.mem_of_mem_filter he)
  rw [Function.comp_apply, Function.comp_apply, taking, hnumber]
  rfl

/-- A posting that lacks no number stays as it is. -/
theorem completed_of_number (hunits : p.units.isSome) (h : p.missingNumber? = none)
    (residual : Totals) (solved : List (Currency × Decimal)) :
    (completed residual solved p).map (·.1) = [p] := by
  unfold completed
  unfold missingNumber? at h
  split
  · next hnone => simp [hnone] at hunits
  · next c hc => simp [hc] at h
  · rfl

end Posting

/-! ## The residual with the legs -/

theorem residualOf_of_open {p : Posting} (h : p.units = none) (before after : List Posting) :
    residualOf (before ++ p :: after) = residualOf (before ++ after) := by
  have hskip (t : Totals) : t.addWeight p = .exact t := by
    rw [Totals.addWeight, Posting.weight?_of_open h]
    rfl
  rw [residualOf, residualOf, List.foldlM_append, List.foldlM_append]
  refine congrArg _ (funext fun t => ?_)
  rw [List.foldlM_cons, hskip, Checked.exact_bind]

/-- The legs together weigh the opposite of what is left over. -/
theorem sum_weightIn_taking (p : Posting) (leftOver : Totals) (c : Currency) :
    ((leftOver.nonzero.map (p.taking leftOver)).map (·.weightIn c)).sum =
      -(leftOver.number c).value := by
  have hnodup := leftOver.nodup_nonzero
  rw [List.map_map]
  by_cases hc : c ∈ leftOver.nonzero
  · -- One leg is in the currency, and the others weigh nothing in it.
    obtain ⟨before, after, hsplit⟩ := List.append_of_mem hc
    rw [hsplit] at hnodup ⊢
    obtain ⟨-, hafter, hbefore⟩ := List.nodup_append.1 hnodup
    have hothers : ∀ l : List Currency, (∀ c' ∈ l, c' ≠ c) →
        (l.map ((·.weightIn c) ∘ p.taking leftOver)).sum = 0 := by
      intro l hl
      refine List.sum_eq_zero fun x hx => ?_
      obtain ⟨c', hc', rfl⟩ := List.mem_map.1 hx
      rw [Function.comp_apply, Posting.weightIn_taking, if_neg (hl c' hc')]
    have h₁ := hothers before fun c' hc' => hbefore c' hc' c (by simp)
    have h₂ := hothers after fun c' hc' h => (List.nodup_cons.1 hafter).1 (h ▸ hc')
    rw [List.map_append, List.map_cons, List.sum_append, List.sum_cons, h₁, h₂,
      Function.comp_apply, Posting.weightIn_taking, if_pos rfl]
    ring
  · have hzero : (leftOver.number c).value = 0 := by
      by_contra h
      exact hc (Totals.mem_nonzero_iff.2 fun h' => h (Decimal.isZero_iff.1 h'))
    rw [hzero, neg_zero]
    refine List.sum_eq_zero fun x hx => ?_
    obtain ⟨c', hc', rfl⟩ := List.mem_map.1 hx
    rw [Function.comp_apply, Posting.weightIn_taking, if_neg]
    rintro rfl
    exact hc hc'

/-- With the legs in their place, nothing is left over in any currency. -/
theorem value_residual_taken {before after : List Posting} {p : Posting} {others total : Totals}
    (hothers : residualOf (before ++ after) = .exact others)
    (htotal : residualOf (before ++ others.nonzero.map (p.taking others) ++ after) = .exact total)
    (c : Currency) : (total.number c).value = 0 := by
  have h₁ := value_residualOf hothers c
  have h₂ := value_residualOf htotal c
  rw [List.map_append, List.sum_append] at h₁
  rw [List.map_append, List.map_append, List.sum_append, List.sum_append,
    sum_weightIn_taking] at h₂
  linarith

/-! ## Tolerances -/

theorem Totals.tolerance_raise_nonneg {t : Totals} {currency : Currency} {n : Decimal}
    (ht : ∀ c, 0 ≤ (t.tolerance c).value) (hn : 0 ≤ n.value) (c : Currency) :
    0 ≤ ((t.raise currency n).tolerance c).value := by
  have hinsert : 0 ≤ ((t.insert currency n).getD c defaultTolerance).value := by
    rw [Std.TreeMap.getD_insert]
    split
    · exact hn
    · exact ht c
  unfold raise tolerance
  split
  · split
    · exact hinsert
    · exact ht c
  · exact hinsert

/-- No tolerance is negative. -/
theorem Transaction.tolerance_nonneg {strict : Bool} {t : Transaction} {tolerances : Totals}
    (h : t.tolerances.Gives strict tolerances) (c : Currency) :
    0 ≤ (tolerances.tolerance c).value := by
  have hdefault : 0 ≤ defaultTolerance.value := by
    norm_num [Decimal.value, Decimal.signed, defaultTolerance]
  refine Checked.foldlM_invariant
    (fun _ (seen : Totals) => ∀ c, 0 ≤ (seen.tolerance c).value) ?_ ?_ h c
  · intro c
    exact hdefault
  · intro _ seen a seen' hseen hstep
    obtain ⟨n, hn, hstep⟩ := Checked.bind_gives.1 hstep
    obtain rfl := Checked.exact_gives.1 hstep
    have hvalue : n.value = 5 / 10 ^ (a.number.scale + 1) :=
      Decimal.value_halfUnit (Checked.Gives.value? hn)
    refine Totals.tolerance_raise_nonneg hseen ?_
    rw [hvalue]
    positivity

/-! ## Validation -/

namespace Validation

variable {strict : Bool} {s : State} {rules : Rules} {date : Date} {problems : List Problem}

theorem code_of_mem_postingProblems {seen : List Account} {ps : List Posting} {q : Problem}
    (h : q ∈ s.postingProblems rules date seen ps) : q.code ≠ "E3001" := by
  induction ps generalizing seen with
  | nil => cases h
  | cons p ps ih =>
    rw [State.postingProblems, List.mem_append, List.mem_append] at h
    rcases h with (huse | hcurrency) | hrest
    · split at huse
      · cases huse
      · intro hcode
        simpa [hcode] using code_of_mem_useProblems huse
    · unfold State.currencyProblems at hcurrency
      split at hcurrency
      · cases hcurrency
      · rcases List.mem_append.1 hcurrency with hcurrency | hcurrency
        · split at hcurrency
          · cases hcurrency
          · obtain rfl := List.mem_singleton.1 hcurrency
            simp [Problem.code]
        · split at hcurrency
          · cases hcurrency
          · obtain rfl := List.mem_singleton.1 hcurrency
            simp [Problem.code]
    · exact ih hrest

/-- A transaction whose residuals are all zero is not reported as unbalanced. -/
theorem code_of_residual_zero {t : Transaction} {residual : Totals}
    (hresidual : t.residual = .exact residual) (hzero : ∀ c, (residual.number c).value = 0)
    (h : (s.transactionProblems rules date t).Gives strict problems) :
    ∀ q ∈ problems, q.code ≠ "E3001" := by
  unfold State.transactionProblems at h
  split at h
  · obtain rfl := Checked.exact_gives.1 h
    simp [Problem.code]
  · obtain ⟨found, hfound, h⟩ := Checked.bind_gives.1 h
    obtain rfl := Checked.exact_gives.1 h
    obtain ⟨tolerances, htolerances, hfound⟩ := Checked.bind_gives.1 hfound
    rw [hresidual, Checked.exact_bind] at hfound
    obtain rfl := Checked.exact_gives.1 hfound
    have hnone : residual.exceeding tolerances = [] := by
      refine List.filter_eq_nil_iff.2 fun e he => ?_
      have hvalue : e.2.value = 0 := Totals.number_of_mem he ▸ hzero e.1
      have hle : e.2.abs ≤ tolerances.tolerance e.1 := by
        rw [Decimal.le_iff, Decimal.value_abs, hvalue, abs_zero]
        exact Transaction.tolerance_nonneg htolerances e.1
      simpa using hle
    rw [hnone, List.map_nil, List.append_nil]
    exact fun q hq => code_of_mem_postingProblems hq

end Validation

/-! ## Interpolation -/

/-- The only element with a property, and those around it. -/
theorem exists_split_of_countP {α : Type} {p : α → Bool} {l : List α} (h : l.countP p = 1) :
    ∃ before a after, l = before ++ a :: after ∧ p a ∧ ∀ x ∈ before ++ after, ¬p x := by
  obtain ⟨a, ha, hp⟩ := List.countP_pos_iff.1 (h ▸ Nat.one_pos)
  obtain ⟨before, after, rfl⟩ := List.append_of_mem ha
  refine ⟨before, a, after, rfl, hp, List.countP_eq_zero.1 ?_⟩
  rw [List.countP_append, List.countP_cons_of_pos hp] at h
  rw [List.countP_append]
  omega

/-- If only the units of one posting are missing, interpolation replaces it by the legs that take
what the other postings leave over. -/
theorem Transaction.interpolate_open {t : Transaction} {result : Interpolation}
    (hopen : t.postings.countP (·.units.isNone) = 1)
    (hmissing : ∀ p ∈ t.postings, p.missingNumber? = none)
    (h : t.interpolate.run = .exact (.ok result)) :
    ∃ before p after others, t.postings = before ++ p :: after ∧ p.units = none ∧
      residualOf ((before ++ after).map (·.inContext t.sharedCurrency?)) = .exact others ∧
      result.transaction = { t with
        postings := before.map (·.inContext t.sharedCurrency?) ++
          others.nonzero.map (p.taking others) ++ after.map (·.inContext t.sharedCurrency?) } ∧
      result.transaction.residual = .exact result.residual := by
  obtain ⟨written, residual, solved, h⟩ := interpolate_gives.1 (Checked.gives_true.2 h)
  have hwritten := Checked.gives_true.1 h.sum
  have htotal := Checked.gives_true.1 h.residual
  have hresult := h.transaction
  have hsolved := h.solving
  rw [t.map_standIns] at hresult
  rw [missingNumbers_eq_nil hmissing, List.foldlM_nil,
    Checked.pure_gives_ok] at hsolved
  obtain ⟨rfl, rfl⟩ := Prod.mk.inj hsolved
  obtain ⟨before, p, after, hsplit, hunits, hsome⟩ := exists_split_of_countP hopen
  rw [Option.isNone_iff_eq_none] at hunits
  have hothers : ∀ q ∈ before ++ after, q.units.isSome ∧ q.missingNumber? = none := by
    intro q hq
    refine ⟨by simpa [Option.isSome_iff_ne_none] using hsome q hq, hmissing q ?_⟩
    rw [hsplit]
    rcases List.mem_append.1 hq with hq | hq <;> simp [hq]
  have hkept : ∀ l : List Posting, (∀ q ∈ l, q ∈ before ++ after) →
      l.flatMap (fun q => (completed written [] (q.inContext t.sharedCurrency?)).map (·.1)) =
        l.map (·.inContext t.sharedCurrency?) := by
    intro l hl
    rw [List.map_eq_flatMap]
    refine List.flatMap_congr fun q hq => ?_
    obtain ⟨hsome, hnumber⟩ := hothers q (hl q hq)
    obtain ⟨-, hsome', hnumber'⟩ := q.inContext_eq t.sharedCurrency?
    exact Posting.completed_of_number (hsome'.trans hsome) (hnumber'.trans hnumber) _ _
  refine ⟨before, p, after, written, hsplit, hunits, ?_, ?_, htotal⟩
  · rw [Transaction.written, hsplit, List.map_append, List.map_cons,
      Posting.inContext_of_open hunits, residualOf_of_open hunits] at hwritten
    rw [List.map_append, hwritten]
  · rw [hresult, hsplit, List.flatMap_append, List.flatMap_cons,
      Posting.inContext_of_open hunits, Posting.completed_of_open hunits,
      hkept before (by simp +contextual), hkept after (by simp +contextual), List.append_assoc]

/-- An open posting balances its transaction. If one posting has no units and no number is missing
from the others, then after interpolation every residual is zero, exactly one leg stands in its
place for each currency that the others leave over, in ascending order, and wherever the transaction
stands in a ledger, it is not reported as unbalanced. -/
theorem openPosting_balances {t : Transaction} {result : Interpolation}
    (hopen : t.postings.countP (·.units.isNone) = 1)
    (hmissing : ∀ p ∈ t.postings, p.missingNumber? = none)
    (h : t.interpolate.run = .exact (.ok result)) :
    (result.transaction.residual = .exact result.residual ∧
      ∀ c, (result.residual.number c).isZero) ∧
    (∃ (before : List Posting) (p : Posting) (after : List Posting) (others : Totals)
        (currencies : List Currency),
      t.postings = before ++ p :: after ∧ p.units = none ∧
      residualOf ((before ++ after).map (·.inContext t.sharedCurrency?)) = .exact others ∧
      currencies.Pairwise (· < ·) ∧ (∀ c, c ∈ currencies ↔ ¬(others.number c).isZero) ∧
      result.transaction = { t with
        postings := before.map (·.inContext t.sharedCurrency?) ++
          currencies.map (p.taking others) ++ after.map (·.inContext t.sharedCurrency?) }) ∧
    ∀ (rules : Validation.Rules) (l before after : List Directive) (d : Directive)
      (violations : List Violation),
      Directive.byDate l = before ++ d :: after → d.body = .transaction result.transaction →
      (validate rules l).value? = some violations →
      ∃ (earlier : List Violation) (problems : List Problem) (later : List Violation),
        (validate rules before).value? = some earlier ∧
        (validate rules (before ++ [d])).value? =
          some (earlier ++ problems.map (⟨·, d.date, d.location?⟩)) ∧
        violations = earlier ++ problems.map (⟨·, d.date, d.location?⟩) ++ later ∧
        ∀ q ∈ problems, q.code ≠ "E3001" := by
  obtain ⟨before, p, after, others, hsplit, hunits, hothers, hresult, htotal⟩ :=
    Transaction.interpolate_open hopen hmissing h
  have hzero : ∀ c, (result.residual.number c).value = 0 := by
    rw [Transaction.residual, hresult] at htotal
    rw [List.map_append] at hothers
    exact value_residual_taken hothers htotal
  refine ⟨⟨htotal, fun c => Decimal.isZero_iff.2 (hzero c)⟩, ?_, ?_⟩
  · exact ⟨before, p, after, others, others.nonzero, hsplit, hunits, hothers,
      others.pairwise_nonzero, fun c => Totals.mem_nonzero_iff, hresult⟩
  · intro rules l earlierOnes laterOnes d violations hl hbody hvalid
    obtain ⟨s, earlier, problems, later, -, hproblems, hbefore, hupto, hviolations⟩ :=
      validate_byDate hl (Checked.gives_false.2 hvalid)
    refine ⟨earlier, problems, later, hbefore.value?, hupto.value?, hviolations, ?_⟩
    rw [Validation.State.problems, hbody] at hproblems
    exact Validation.code_of_residual_zero htotal hzero hproblems

/-- Shares and metal bought for money whose amount is not written. -/
def mixedPurchase : Transaction where
  postings := [
    { Posting.plain "Assets:Shares" (.ofNat 3) "ACME" with
      cost := some { perUnit := some (.written "1.50"), currency := some "USD" } },
    { account := "Assets:Cash" },
    .plain "Expenses:Fees" (.written "0.75") "EUR",
    { Posting.plain "Assets:Metal" (.ofNat 2) "GOLD" with
      price := some (.total ⟨.ofNat 90, "USD"⟩) }]

theorem openPosting_balances_mixedPurchase :
    mixedPurchase.postings.countP (·.units.isNone) = 1 ∧
    (∀ p ∈ mixedPurchase.postings, p.missingNumber? = none) ∧
    ∃ result, mixedPurchase.interpolate.run = .exact (.ok result) ∧
      (∀ c, (result.residual.number c).isZero) ∧
      result.transaction.postings.map (·.amount?.map Amount.text) =
        [some "3 ACME", some "-0.75 EUR", some "-94.50 USD", some "0.75 EUR", some "2 GOLD"] ∧
      ∃ violations, (validate {} [(Directive.Body.transaction result.transaction).on 0]).value? =
          some violations ∧
        ∀ v ∈ violations, v.problem.code ≠ "E3001" := by
  have hopen : mixedPurchase.postings.countP (·.units.isNone) = 1 := by decide +kernel
  have hmissing : ∀ p ∈ mixedPurchase.postings, p.missingNumber? = none := by decide +kernel
  obtain ⟨result, hresult, htexts, hvalid⟩ : ∃ result,
      mixedPurchase.interpolate.run = .exact (.ok result) ∧
      result.transaction.postings.map (·.amount?.map Amount.text) =
        [some "3 ACME", some "-0.75 EUR", some "-94.50 USD", some "0.75 EUR", some "2 GOLD"] ∧
      (validate {} [(Directive.Body.transaction result.transaction).on 0]).value?.isSome :=
    exists_exact_of_any (by decide +kernel)
  obtain ⟨violations, hviolations⟩ := Option.isSome_iff_exists.1 hvalid
  obtain ⟨⟨-, hzero⟩, -, hbalanced⟩ := openPosting_balances hopen hmissing hresult
  refine ⟨hopen, hmissing, result, hresult, hzero, htexts, violations, hviolations, ?_⟩
  obtain ⟨earlier, problems, later, hbefore, hupto, -, hcodes⟩ :=
    hbalanced {} _ [] [] _ violations (Directive.byDate_of_pairwise (by simp)) rfl hviolations
  have hnone : (validate {} []).value? = some [] := by simp [validate, Validation.run]
  obtain rfl : [] = earlier := Option.some.inj (hnone.symm.trans hbefore)
  have hall : violations = problems.map _ := Option.some.inj (hviolations.symm.trans hupto)
  rw [hall]
  exact List.forall_mem_map.2 hcodes

end DoubleEntry
