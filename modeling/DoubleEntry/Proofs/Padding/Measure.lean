import DoubleEntry.Proofs.Padding.Run
import DoubleEntry.Proofs.Sample
import DoubleEntry.Proofs.Subtree
import DoubleEntry.Proofs.Validation

/-!
# What padding and validation measure

Padding compares an assertion with what its account itself holds, validation with what the account
and those below it hold. The two agree if what was posted below the account cancels
(`held_eq_subtreeUnits_iff`).
-/

namespace DoubleEntry

/-- After some directives, whatever they are, let an assertion meet a pad. What it is compared with is
what its account alone holds, of all that the directives and the padding transactions so far have
moved. Validation goes on from there to add what the accounts below hold. After the same directives
and transactions in any order, and if nothing rounds, the two numbers are equal if and only if what
was posted below the account adds up to zero. -/
theorem held_eq_subtreeUnits_iff {before : List Directive} {s : Padding.State} {d : Directive}
    {b : Assertion} {pad : Padding.Active} (hs : (Padding.run before).value? = some s)
    (hbody : d.body = .balance b) (hpad : s.padFor? b = some pad) :
    (∀ s', (s.step d).value? = some s' → s'.transactions = s.transactions ∨
      ∃ difference, (b.amount.number.sub (s.held b)).value? = some difference ∧
        s'.transactions = s.transactions ++
          [pad.entry.transaction b.amount ⟨difference, b.amount.currency⟩]) ∧
    s.holdings.MovedBy false (before ++ s.transactions) ∧
    s.holdings.subtreeUnits b.account b.amount.currency =
      (s.holdings.unitsBelow b.account b.amount.currency).foldlM Decimal.add (s.held b) ∧
    ∀ rules seen after violations total,
      Padding.run before = .exact s → seen.Perm (before ++ s.transactions) →
      Validation.run rules seen = .exact (after, violations) →
      after.holdings.subtreeUnits b.account b.amount.currency = .exact total →
      (s.held b).value =
        posted (seen.flatMap Directive.postings) (· == b.account) b.amount.currency ∧
      total.value =
        posted (seen.flatMap Directive.postings) (Account.isWithin · b.account) b.amount.currency ∧
      ((s.held b).value = total.value ↔
        posted (seen.flatMap Directive.postings) (Account.isBelow · b.account) b.amount.currency
          = 0) := by
  refine ⟨fun s' h => ?_, Padding.movedBy_run (Checked.gives_false.2 hs),
    Holdings.subtreeUnits_eq _ _ _, ?_⟩
  · simpa using Padding.transactions_of_padFor? hbody hpad (Checked.gives_false.2 h)
  · intro rules seen after violations total hrun hseen hvalidation htotal
    have hheld := Padding.value_held hrun b
    rw [← posted_perm (hseen.flatMap_right _)] at hheld
    have hwithin := Validation.value_subtreeUnits hvalidation htotal
    refine ⟨hheld, hwithin, ?_⟩
    rw [hheld, hwithin, posted_isWithin, left_eq_add]

/-- The account below a padded one is funded. -/
def fundedBelow : List Directive :=
  [(Directive.Body.transaction {
      postings := [
        .plain "Assets:Bank:Checking" (.ofNat 100) "USD",
        .plain "Equity:Opening" (Decimal.ofNat 100).neg "USD"] }).on 0,
   (Directive.Body.pad ⟨"Assets:Bank", "Equity:Opening"⟩).on 1]

/-- What is asserted for the padded account. -/
def assertedAbove : Assertion := ⟨"Assets:Bank", ⟨.ofNat 150, "USD"⟩, none⟩

/-- The assertion, on the day after the pad. -/
def assertingAbove : Directive := (Directive.Body.balance assertedAbove).on 2

theorem run_fundedBelow :
    ∃ s, Padding.run fundedBelow = .exact s ∧ s.transactions = [] ∧
      (s.padFor? assertedAbove).isSome ∧ s.held assertedAbove = .zero := by
  decide +kernel

theorem validation_fundedBelow :
    ∃ after, Validation.run {} fundedBelow = .exact after ∧
      after.1.holdings.subtreeUnits "Assets:Bank" "USD" = .exact (Decimal.ofNat 100) := by
  decide +kernel

theorem held_eq_subtreeUnits_iff_fundedBelow :
    ∃ s pad after violations, Padding.run fundedBelow = .exact s ∧
      s.padFor? assertedAbove = some pad ∧
      Validation.run {} fundedBelow = .exact (after, violations) ∧
      after.holdings.subtreeUnits "Assets:Bank" "USD" = .exact (Decimal.ofNat 100) ∧
      ((s.held assertedAbove).value = (Decimal.ofNat 100).value ↔
        posted (fundedBelow.flatMap Directive.postings) (Account.isBelow · "Assets:Bank") "USD"
          = 0) := by
  obtain ⟨s, hs, htransactions, hpad, -⟩ := run_fundedBelow
  obtain ⟨pad, hpad⟩ := Option.isSome_iff_exists.1 hpad
  obtain ⟨⟨after, violations⟩, hafter, htotal⟩ := validation_fundedBelow
  have hbody : assertingAbove.body = .balance assertedAbove := rfl
  obtain ⟨-, -, -, hall⟩ := held_eq_subtreeUnits_iff (by rw [hs]; rfl) hbody hpad
  refine ⟨s, pad, after, violations, hs, hpad, hafter, htotal, ?_⟩
  exact (hall {} fundedBelow after violations _ hs (by simp [htransactions]) hafter htotal).2.2

/-- The assertion finds nothing in its account, and validation finds what is below it. -/
theorem held_ne_subtreeUnits_fundedBelow :
    Directive.sort (fundedBelow ++ [assertingAbove]) = fundedBelow ++ assertingAbove :: [] ∧
    ∃ s pad after violations total, Padding.run fundedBelow = .exact s ∧ s.transactions = [] ∧
      s.padFor? assertedAbove = some pad ∧
      Validation.run {} fundedBelow = .exact (after, violations) ∧
      after.holdings.subtreeUnits "Assets:Bank" "USD" = .exact total ∧
      (s.held assertedAbove).value ≠ total.value := by
  obtain ⟨s, hs, htransactions, hpad, hheld⟩ := run_fundedBelow
  obtain ⟨pad, hpad⟩ := Option.isSome_iff_exists.1 hpad
  obtain ⟨⟨after, violations⟩, hafter, htotal⟩ := validation_fundedBelow
  refine ⟨Directive.sort_of_isSorted (by decide +kernel), s, pad, after, violations, _, hs,
    htransactions, hpad, hafter, htotal, ?_⟩
  rw [hheld, Decimal.value_zero, Decimal.value_ofNat (by decide)]
  norm_num

end DoubleEntry
