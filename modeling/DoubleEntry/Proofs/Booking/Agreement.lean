import DoubleEntry.Proofs.Booking.OpenPosting
import DoubleEntry.Proofs.Booking.Weights
import DoubleEntry.Proofs.Sample
import DoubleEntry.Proofs.Tolerance

/-!
# The two checks of the balance

A transaction is checked twice: on its own (`Transaction.isBalanced`), and in its ledger by
validation, which names the residuals. Both compare each residual with the largest tolerance that a
written amount of its currency implies.

* `IsToleranceOf`: what the tolerance of a currency is.
* `Totals.mem_unbalanced_iff`: the currencies whose residual exceeds it.
* `Transaction.ReportedAs`: what validation reports as the residuals of a transaction.
* `balanceChecks_agree`: that is nothing exactly if the transaction balances, and the currencies do
  not depend on the order of the postings.
-/

namespace DoubleEntry

/-! ## The largest tolerance -/

/-- A number is the tolerance of some amounts, all of one currency: the largest that one of them
implies, or the default if there are none. -/
structure IsToleranceOf (amounts : List Amount) (n : Decimal) : Prop where
  default : amounts = [] → n = defaultTolerance
  attained : amounts ≠ [] → ∃ a ∈ amounts, a.inferredTolerance.value? = some n
  largest : ∀ a ∈ amounts, ∃ m, a.inferredTolerance.value? = some m ∧ m.value ≤ n.value

namespace IsToleranceOf

variable {amounts amounts' : List Amount} {n n' m : Decimal} {a : Amount}

theorem nil : IsToleranceOf [] defaultTolerance :=
  ⟨fun _ => rfl, fun h => absurd rfl h, by simp⟩

theorem singleton (h : a.inferredTolerance.value? = some n) : IsToleranceOf [a] n :=
  ⟨by simp, fun _ => ⟨a, by simp, h⟩, by simpa using ⟨n, h, le_rfl⟩⟩

/-- One more amount, which implies at most as much. -/
theorem append_le (h : IsToleranceOf amounts n) (hamounts : amounts ≠ [])
    (ha : a.inferredTolerance.value? = some m) (hle : m.value ≤ n.value) :
    IsToleranceOf (amounts ++ [a]) n where
  default := by simp
  attained _ := by
    obtain ⟨b, hb, hn⟩ := h.attained hamounts
    exact ⟨b, by simp [hb], hn⟩
  largest := by
    rw [List.forall_mem_append, List.forall_mem_singleton]
    exact ⟨h.largest, m, ha, hle⟩

/-- One more amount, which implies at least as much. -/
theorem append_ge (h : IsToleranceOf amounts n) (ha : a.inferredTolerance.value? = some m)
    (hle : n.value ≤ m.value) : IsToleranceOf (amounts ++ [a]) m where
  default := by simp
  attained _ := ⟨a, by simp, ha⟩
  largest := by
    rw [List.forall_mem_append, List.forall_mem_singleton]
    refine ⟨fun b hb => ?_, m, ha, le_rfl⟩
    obtain ⟨k, hk, hkn⟩ := h.largest b hb
    exact ⟨k, hk, hkn.trans hle⟩

theorem value_le (h : IsToleranceOf amounts n) (h' : IsToleranceOf amounts' n')
    (hperm : amounts.Perm amounts') : n.value ≤ n'.value := by
  by_cases hamounts : amounts = []
  · rw [h.default hamounts, h'.default (List.perm_nil.1 (hamounts ▸ hperm).symm)]
  · obtain ⟨a, ha, hn⟩ := h.attained hamounts
    obtain ⟨m, hm, hle⟩ := h'.largest a (hperm.mem_iff.1 ha)
    obtain rfl := Option.some.inj (hn.symm.trans hm)
    exact hle

/-- The tolerance does not depend on the order of the amounts. -/
theorem value_eq (h : IsToleranceOf amounts n) (h' : IsToleranceOf amounts' n')
    (hperm : amounts.Perm amounts') : n.value = n'.value :=
  (h.value_le h' hperm).antisymm (h'.value_le h hperm.symm)

end IsToleranceOf

namespace Totals

variable {t residual tolerances : Totals} {c : Currency} {n : Decimal}

theorem mem_raise (t : Totals) (c : Currency) (n : Decimal) (c' : Currency) :
    c' ∈ t.raise c n ↔ c = c' ∨ c' ∈ t := by
  have hinsert : c' ∈ t.insert c n ↔ c = c' ∨ c' ∈ t := by
    simp [Std.TreeMap.mem_insert]
  unfold raise
  split
  · rename_i m hm
    split
    · exact hinsert
    · refine ⟨.inr, ?_⟩
      rintro (rfl | h)
      · exact Std.TreeMap.mem_iff_isSome_getElem?.2 (by rw [hm]; rfl)
      · exact h
  · exact hinsert

theorem tolerance_raise_of_ne {c' : Currency} (h : c ≠ c') :
    (t.raise c n).tolerance c' = t.tolerance c' := by
  have hinsert : tolerance (t.insert c n) c' = t.tolerance c' := by
    simp [tolerance, Std.TreeMap.getD_insert, h]
  unfold raise
  split
  · split
    · exact hinsert
    · rfl
  · exact hinsert

/-- What raising makes of the number that it concerns. -/
theorem tolerance_raise_self (t : Totals) (c : Currency) (n : Decimal) :
    (t.raise c n).tolerance c = if c ∈ t ∧ ¬t.tolerance c < n then t.tolerance c else n := by
  have hinsert : tolerance (t.insert c n) c = n := by simp [tolerance]
  have hmem : c ∈ t ↔ (t[c]?).isSome := Std.TreeMap.mem_iff_isSome_getElem?
  have htolerance : t.tolerance c = (t[c]?).getD defaultTolerance :=
    Std.TreeMap.getD_eq_getD_getElem?
  unfold raise
  cases hm : t[c]? with
  | none => simp [hmem, hm, hinsert]
  | some m =>
    rw [hm, Option.getD_some] at htolerance
    by_cases hlt : m < n
    · simp [htolerance, hlt, hinsert]
    · simp [hmem, hm, htolerance, hlt]

end Totals

/-- The tolerances of some amounts, currency by currency. -/
theorem tolerancesOf_spec {amounts : List Amount} {tolerances : Totals}
    (h : (tolerancesOf amounts).value? = some tolerances) (c : Currency) :
    IsToleranceOf (amounts.filter (·.currency = c)) (tolerances.tolerance c) := by
  -- A currency has a number once an amount of it was gone through.
  suffices (c ∈ tolerances ↔ amounts.filter (·.currency = c) ≠ []) ∧
      IsToleranceOf (amounts.filter (·.currency = c)) (tolerances.tolerance c) from this.2
  refine Checked.foldlM_invariant
    (fun seen (t : Totals) => (c ∈ t ↔ seen.filter (·.currency = c) ≠ []) ∧
      IsToleranceOf (seen.filter (·.currency = c)) (t.tolerance c))
    ?_ ?_ (Checked.gives_false.2 h)
  · exact ⟨by simp, .nil⟩
  · rintro seen t a _ ⟨hmem, hseen⟩ hstep
    obtain ⟨n, hn, hstep⟩ := Checked.bind_gives.1 hstep
    obtain rfl := Checked.exact_gives.1 hstep
    rw [Totals.mem_raise, List.filter_append]
    by_cases hc : a.currency = c
    · subst hc
      refine ⟨by simp, ?_⟩
      rw [Totals.tolerance_raise_self, List.filter_singleton, decide_eq_true rfl]
      split
      · rename_i hold
        rw [Decimal.lt_iff, not_lt] at hold
        exact hseen.append_le (hmem.1 hold.1) hn.value? hold.2
      · rename_i hnew
        by_cases hfirst : seen.filter (·.currency = a.currency) = []
        · rw [hfirst]
          exact .singleton hn.value?
        · have hlt : t.tolerance a.currency < n := by
            simpa only [hmem, hfirst, ne_eq, not_false_eq_true, true_and, not_not] using hnew
          exact hseen.append_ge hn.value? (Decimal.lt_iff.1 hlt).le
    · rw [Totals.tolerance_raise_of_ne hc, List.filter_singleton, decide_eq_false hc,
        cond_false, List.append_nil, or_iff_right hc]
      exact ⟨hmem, hseen⟩

/-- The amounts of a currency that a transaction writes in full. Those filled in do not count. -/
def Transaction.writtenIn (t : Transaction) (c : Currency) : List Amount :=
  ((t.postings.filter (!·.isAutomatic)).filterMap Posting.amount?).filter (·.currency = c)

/-! ## Residuals that exceed their tolerance -/

namespace Totals

variable {residual tolerances : Totals} {c : Currency}

/-- The currencies whose residual exceeds its tolerance, in ascending order. -/
def unbalanced (residual tolerances : Totals) : List Currency :=
  (residual.exceeding tolerances).map (·.1)

theorem mem_unbalanced_iff (hzero : 0 ≤ (tolerances.tolerance c).value) :
    c ∈ residual.unbalanced tolerances ↔
      (tolerances.tolerance c).value < |(residual.number c).value| := by
  have hexceeds (n : Decimal) :
      decide (¬n.abs ≤ tolerances.tolerance c) ↔ (tolerances.tolerance c).value < |n.value| := by
    rw [decide_eq_true_iff, Decimal.le_iff, Decimal.value_abs, not_le]
  rw [unbalanced, exceeding, mem_currencies_filter, hexceeds]
  rw [← Bool.not_eq_true, hexceeds, Decimal.value_zero, abs_zero, not_lt]
  exact hzero

theorem pairwise_unbalanced (residual tolerances : Totals) :
    (residual.unbalanced tolerances).Pairwise (· < ·) :=
  residual.pairwise_currencies_filter _

theorem exceeding_eq_map (residual tolerances : Totals) :
    residual.exceeding tolerances =
      (residual.unbalanced tolerances).map fun c => (c, residual.number c) := by
  rw [unbalanced, List.map_map]
  refine (List.map_id _).symm.trans (List.map_congr_left fun e he => ?_)
  exact Prod.ext rfl (number_of_mem (List.mem_filter.1 he).1).symm

end Totals

theorem Transaction.isBalanced_of_residual {t : Transaction} {tolerances residual : Totals}
    (h : t.residual.value? = some residual) :
    (t.isBalanced tolerances).value? = some (residual.unbalanced tolerances).isEmpty := by
  rw [isBalanced, Checked.value?_bind, h, Option.bind_some, Checked.pure_eq, Checked.value?_exact,
    Option.some_inj, Totals.unbalanced, Bool.eq_iff_iff, List.isEmpty_iff, List.map_eq_nil_iff,
    Totals.exceeding, List.filter_eq_nil_iff, List.all_eq_true]
  simp

/-! ## What validation reports -/

/-- Wherever the transaction stands in a ledger, the residuals that validation reports for it are
these, in this order: they lie between what it reports for the directives gone through before and
for those that follow. -/
def Transaction.ReportedAs (t : Transaction) (residuals : List Amount) : Prop :=
  ∀ (rules : Validation.Rules) (l before after : List Directive) (d : Directive)
    (violations : List Violation),
    Directive.byDate l = before ++ d :: after → d.body = .transaction t →
    (validate rules l).value? = some violations →
    ∃ earlier reported later : List Violation,
      (validate rules before).value? = some earlier ∧
      (validate rules (before ++ [d])).value? = some (earlier ++ reported) ∧
      violations = earlier ++ reported ++ later ∧
      reported.filter (·.problem.code = "E3001") =
        residuals.map fun a => ⟨.unbalanced a, d.date, d.location?⟩

section Reported

variable {t : Transaction} {tolerances residual : Totals}

/-- The balance of a transaction is checked in whatever state its ledger is. -/
theorem Validation.State.transactionProblems_of_residual (hpostings : t.postings ≠ [])
    (htolerances : t.tolerances.value? = some tolerances)
    (hresidual : t.residual.value? = some residual) (s : State) (rules : Rules) (date : Date) :
    (s.transactionProblems rules date t).value? =
      some (s.postingProblems rules date [] t.postings ++
        (residual.unbalanced tolerances).map fun c => .unbalanced ⟨residual.number c, c⟩) := by
  have hchecked : (residualProblems t).value? = some
      ((residual.unbalanced tolerances).map fun c => .unbalanced ⟨residual.number c, c⟩) := by
    simp only [residualProblems, Checked.value?_bind, htolerances, hresidual, Option.bind_some,
      Checked.pure_eq, Checked.value?_exact, Totals.exceeding_eq_map, List.map_map]
    rfl
  rw [transactionProblems, if_neg (by simpa using hpostings), Checked.value?_bind, hchecked]
  rfl

theorem Transaction.reportedAs (hpostings : t.postings ≠ [])
    (htolerances : t.tolerances.value? = some tolerances)
    (hresidual : t.residual.value? = some residual) :
    t.ReportedAs ((residual.unbalanced tolerances).map fun c => ⟨residual.number c, c⟩) := by
  intro rules l before after d violations hl hbody hvalid
  obtain ⟨s, earlier, problems, later, -, hproblems, hbefore, hupto, hviolations⟩ :=
    validate_byDate hl (Checked.gives_false.2 hvalid)
  refine ⟨earlier, _, later, hbefore.value?, hupto.value?, hviolations, ?_⟩
  rw [Validation.State.problems, hbody, Checked.gives_false,
    s.transactionProblems_of_residual hpostings htolerances hresidual, Option.some_inj] at hproblems
  have hpostingProblems :
      (s.postingProblems rules d.date [] t.postings).filter (·.code = "E3001") = [] :=
    List.filter_eq_nil_iff.2 fun q hq => by
      simpa using Validation.code_of_mem_postingProblems hq
  have hresiduals : ((residual.unbalanced tolerances).map fun c =>
      Problem.unbalanced ⟨residual.number c, c⟩).filter (·.code = "E3001") =
      (residual.unbalanced tolerances).map fun c => .unbalanced ⟨residual.number c, c⟩ :=
    List.filter_eq_self.2 (List.forall_mem_map.2 fun _ _ => rfl)
  have hreported : problems.filter (·.code = "E3001") =
      (residual.unbalanced tolerances).map fun c => .unbalanced ⟨residual.number c, c⟩ := by
    rw [← hproblems, List.filter_append, hpostingProblems, hresiduals, List.nil_append]
  rw [List.filter_map, List.map_map]
  exact (congrArg (List.map _) hreported).trans List.map_map

end Reported

/-! ## The order of the postings -/

section Order

variable {t t' : Transaction}

theorem Transaction.exists_tolerances_of_perm (h : t'.postings.Perm t.postings)
    (htolerances : ∃ tolerances, t.tolerances.value? = some tolerances) :
    ∃ tolerances, t'.tolerances.value? = some tolerances := by
  rw [Checked.exists_value?_iff] at htolerances ⊢
  intro e he
  refine htolerances e ?_
  rw [tolerances_eq_error_iff] at he ⊢
  simpa only [LacksTolerance, h.mem_iff] using he

theorem Transaction.writtenIn_perm (h : t'.postings.Perm t.postings) (c : Currency) :
    (t'.writtenIn c).Perm (t.writtenIn c) :=
  ((h.filter _).filterMap _).filter _

/-- As long as no sum rounds, the residuals have the same values in every order. -/
theorem Transaction.exists_residual_of_perm (h : t'.postings.Perm t.postings)
    (hexact : AddExactly t.postings) (hexact' : AddExactly t'.postings) {residual : Totals}
    (hresidual : t.residual.value? = some residual) :
    ∃ residual', t'.residual.value? = some residual' ∧ residual'.Alike residual := by
  have hweights := weights_of_residualOf hresidual
  obtain ⟨residual', hresidual'⟩ :=
    hexact'.exists_residualOf fun p hp => hweights p (h.mem_iff.1 hp)
  refine ⟨residual', hresidual', fun c => ?_⟩
  rw [hexact'.value_number hresidual', hexact.value_number hresidual, (h.map _).sum_eq]

/-- So the same currencies exceed their tolerance. -/
theorem Transaction.unbalanced_eq_of_perm (h : t'.postings.Perm t.postings)
    {tolerances tolerances' residual residual' : Totals}
    (htolerances : t.tolerances.value? = some tolerances)
    (htolerances' : t'.tolerances.value? = some tolerances') (hresidual : residual'.Alike residual) :
    residual'.unbalanced tolerances' = residual.unbalanced tolerances := by
  refine Totals.eq_of_pairwise (residual'.pairwise_unbalanced _) (residual.pairwise_unbalanced _)
    fun c => ?_
  have hvalue : (tolerances'.tolerance c).value = (tolerances.tolerance c).value :=
    (tolerancesOf_spec htolerances' c).value_eq (tolerancesOf_spec htolerances c)
      (writtenIn_perm h c)
  rw [Totals.mem_unbalanced_iff (tolerance_nonneg (Checked.gives_false.2 htolerances') c),
    Totals.mem_unbalanced_iff (tolerance_nonneg (Checked.gives_false.2 htolerances) c),
    hresidual c, hvalue]

end Order

/-- The two checks of the balance agree. If a transaction has a posting, and its tolerances and its
residual can be told, then validation can check it in whatever state the ledger is, and reports
exactly one residual for each currency that exceeds its tolerance, in ascending order; so it reports
none exactly if the transaction balances. The tolerance of a currency is the largest that a written
amount of it implies, or the default if there is none. In another order of the postings the
currencies are the same, as long as no sum rounds in either. -/
theorem balanceChecks_agree {t : Transaction} {tolerances residual : Totals}
    (hpostings : t.postings ≠ []) (htolerances : t.tolerances.value? = some tolerances)
    (hresidual : t.residual.value? = some residual) :
    (∀ c, IsToleranceOf (t.writtenIn c) (tolerances.tolerance c)) ∧
    ∃ currencies : List Currency,
      currencies.Pairwise (· < ·) ∧
      (∀ c, c ∈ currencies ↔ (tolerances.tolerance c).value < |(residual.number c).value|) ∧
      (t.isBalanced tolerances).value? = some currencies.isEmpty ∧
      (∀ (s : Validation.State) (rules : Validation.Rules) (date : Date),
        ∃ problems, (s.transactionProblems rules date t).value? = some problems) ∧
      t.ReportedAs (currencies.map fun c => ⟨residual.number c, c⟩) ∧
      ∀ t' : Transaction, t'.postings.Perm t.postings →
        AddExactly t.postings → AddExactly t'.postings →
        ∃ tolerances' residual', t'.tolerances.value? = some tolerances' ∧
          t'.residual.value? = some residual' ∧
          (t'.isBalanced tolerances').value? = some currencies.isEmpty ∧
          t'.ReportedAs (currencies.map fun c => ⟨residual'.number c, c⟩) := by
  refine ⟨tolerancesOf_spec htolerances, residual.unbalanced tolerances,
    residual.pairwise_unbalanced tolerances, fun c => ?_, Transaction.isBalanced_of_residual hresidual,
    fun s rules date => ⟨_, s.transactionProblems_of_residual hpostings htolerances hresidual ..⟩,
    Transaction.reportedAs hpostings htolerances hresidual, ?_⟩
  · exact Totals.mem_unbalanced_iff
      (Transaction.tolerance_nonneg (Checked.gives_false.2 htolerances) c)
  · intro t' hperm hexact hexact'
    obtain ⟨tolerances', htolerances'⟩ :=
      Transaction.exists_tolerances_of_perm hperm ⟨tolerances, htolerances⟩
    obtain ⟨residual', hresidual', halike⟩ :=
      Transaction.exists_residual_of_perm hperm hexact hexact' hresidual
    have hpostings' : t'.postings ≠ [] := fun hnil =>
      hpostings (List.nil_perm.1 (hnil ▸ hperm))
    refine ⟨tolerances', residual', htolerances', hresidual', ?_⟩
    rw [← Transaction.unbalanced_eq_of_perm hperm htolerances htolerances' halike]
    exact ⟨Transaction.isBalanced_of_residual hresidual',
      Transaction.reportedAs hpostings' htolerances' hresidual'⟩

/-- Shares bought for less than their cost, with a fee. What is paid for the fee is not the user's
amount, so its places do not count. -/
def cheapShares : Transaction where
  postings := [
    { Posting.plain "Assets:Shares" (.ofNat 3) "ACME" with
      cost := some { perUnit := some (.written "1.50"), currency := some "USD" } },
    .plain "Assets:Cash" (.written "-4.00") "USD",
    .plain "Expenses:Fees" (.written "0.750") "EUR",
    { Posting.plain "Assets:Euros" (.written "-0.7") "EUR" with
      metadata := ({} : Metadata).insert Metadata.automaticKey (.bool true) }]

theorem balanceChecks_agree_cheapShares :
    cheapShares.postings ≠ [] ∧
    ∃ tolerances residual : Totals, cheapShares.tolerances.value? = some tolerances ∧
      cheapShares.residual.value? = some residual ∧
      (cheapShares.isBalanced tolerances).value? = some false ∧
      (∃ violations, (validate {} [(Directive.Body.transaction cheapShares).on 0]).value? =
          some violations ∧
        violations.filter (·.problem.code = "E3001") =
          [⟨.unbalanced ⟨.written "0.050", "EUR"⟩, .afterNewYear 0, none⟩,
            ⟨.unbalanced ⟨.written "0.50", "USD"⟩, .afterNewYear 0, none⟩]) ∧
      ∃ tolerances', { cheapShares with
          postings := cheapShares.postings.reverse }.tolerances.value? = some tolerances' ∧
        ({ cheapShares with postings := cheapShares.postings.reverse }.isBalanced
          tolerances').value? = some false := by
  have hpostings : cheapShares.postings ≠ [] := by decide
  obtain ⟨tolerances, htolerances⟩ := Option.isSome_iff_exists.1
    (show cheapShares.tolerances.value?.isSome by decide +kernel)
  obtain ⟨residual, hresidual⟩ : ∃ r, residualOf cheapShares.postings = .exact r := by
    decide +kernel
  obtain ⟨_, hreversed⟩ : ∃ r, residualOf cheapShares.postings.reverse = .exact r := by
    decide +kernel
  have hvalue : cheapShares.residual.value? = some residual := by
    rw [Transaction.residual, hresidual, Checked.value?_exact]
  obtain ⟨-, currencies, -, -, hbalanced, -, hreported, horder⟩ :=
    balanceChecks_agree hpostings htolerances hvalue
  obtain ⟨violations, hviolations, hfound⟩ := (Option.any_eq_true _ _).1
    (show (validate {} [(Directive.Body.transaction cheapShares).on 0]).value?.any
      fun violations => violations.filter (·.problem.code = "E3001") =
        [⟨.unbalanced ⟨.written "0.050", "EUR"⟩, .afterNewYear 0, none⟩,
          ⟨.unbalanced ⟨.written "0.50", "USD"⟩, .afterNewYear 0, none⟩] by decide +kernel)
  have hfound := of_decide_eq_true hfound
  obtain ⟨earlier, reported, later, hbefore, hupto, -, hfilter⟩ :=
    hreported {} _ [] [] _ violations (Directive.byDate_of_pairwise (by simp)) rfl hviolations
  have hnone : (validate {} []).value? = some [] := by simp [validate, Validation.run]
  obtain rfl : [] = earlier := Option.some.inj (hnone.symm.trans hbefore)
  obtain rfl : violations = reported := Option.some.inj (hviolations.symm.trans hupto)
  have hsome : currencies.isEmpty = false := by
    cases currencies with
    | nil => simp [hfound] at hfilter
    | cons c currencies => rfl
  rw [hsome] at hbalanced horder
  obtain ⟨tolerances', residual', htolerances', -, hbalanced', -⟩ :=
    horder { cheapShares with postings := cheapShares.postings.reverse }
      (List.reverse_perm _) (.of_exact hresidual) (.of_exact hreversed)
  exact ⟨hpostings, tolerances, residual, htolerances, hvalue, hbalanced,
    ⟨violations, hviolations, hfound⟩, tolerances', htolerances', hbalanced'⟩

end DoubleEntry
