import DoubleEntry.Proofs.Lifetimes
import DoubleEntry.Proofs.Sample

/-!
# Assertions are decided at the start of the day

In a sorted ledger the transactions before an assertion are those of earlier days
(`posted_before_assertion`), so what validation finds in the accounts is what these have posted.

* `assertionFailed_iff`: an assertion on an account that was opened before fails if and only if
  that differs from what is asserted by more than the tolerance.
-/

namespace DoubleEntry

/-- The number that the tolerance of an assertion stands for: the one written, or else half a unit
of the last place of the number asserted. -/
def Assertion.toleranceValue (b : Assertion) : ℚ :=
  b.tolerance.elim (5 / 10 ^ (b.amount.number.scale + 1)) Decimal.value

theorem Assertion.value_effectiveTolerance {b : Assertion} {t : Decimal}
    (h : b.effectiveTolerance = .exact t) : t.value = b.toleranceValue := by
  unfold toleranceValue
  obtain ht | ⟨ht, hvalue⟩ := effectiveTolerance_cases h
  · rw [ht, Option.elim_some]
  · rw [ht, Option.elim_none, hvalue]

/-- On one day, transactions come after assertions: in a sorted ledger, what is posted before an
assertion is what the transactions of earlier days post. -/
theorem posted_before_assertion {l before after : List Directive} {db : Directive} {b : Assertion}
    (hsort : Directive.sort l = before ++ db :: after) (hbody : db.body = .balance b)
    (P : Account → Bool) (c : Currency) :
    posted ((l.filter (·.date < db.date)).flatMap Directive.postings) P c =
      posted (before.flatMap Directive.postings) P c := by
  have hsorted := Directive.isSorted_sort l
  rw [hsort] at hsorted
  have hperm : l.Perm (before ++ db :: after) := hsort ▸ (Directive.sort_perm l).symm
  rw [posted_perm ((hperm.filter _).flatMap_right _), List.filter_append, List.filter_cons_of_neg
    (by simp), List.flatMap_append, posted_append]
  obtain ⟨-, hafter, hbefore⟩ := List.pairwise_append.1 hsorted
  have hlate : after.filter (·.date < db.date) = [] := by
    refine List.filter_eq_nil_iff.2 fun d hd => ?_
    simpa using hsorted.date_le.2 d hd
  rw [hlate, List.flatMap_nil, posted_nil, add_zero]
  refine posted_filter fun d hd hlt => ?_
  rw [Directive.postings_eq_nil, posted_nil]
  intro t ht
  have hle := hbefore d hd db (by simp)
  have hne := Directive.transaction_rank_ne ht hbody
  exact hlt (decide_eq_true ((Directive.transaction_rank_lt_iff ht hbody).1 (by omega)))

namespace Validation

variable {rules : Rules} {s : State} {d : Directive}

/-- When an assertion fails, if nothing rounds: its account must be known, and what is held in it
and below it must differ too much from what is asserted. -/
theorem exists_assertionFailed_iff {b : Assertion} {problems : List Problem} {total : ℚ}
    (hbody : d.body = .balance b) (h : s.problems rules d = .exact problems)
    (htotal : ∀ held, s.holdings.subtreeUnits b.account b.amount.currency = .exact held →
      held.value = total) :
    (∃ p ∈ problems, p.code = "E2001") ↔
      s.accounts[b.account]? ≠ none ∧ b.toleranceValue < |total - b.amount.number.value| := by
  constructor
  · rintro ⟨p, hp, hcode⟩
    obtain ⟨held, tolerance, hheld, htolerance, hlt⟩ := exists_of_assertionFailed hbody h hp hcode
    rw [Assertion.value_effectiveTolerance htolerance, htotal held hheld] at hlt
    refine ⟨fun hunknown => ?_, hlt⟩
    -- On an unknown account nothing is asserted, and that it is unknown has another code.
    simp only [State.problems, hbody, State.assertionProblems,
      Std.TreeMap.contains_eq_isSome_getElem?, hunknown] at h
    obtain rfl := Checked.exact.inj h
    exact code_ne_of_mem_useProblems hp hcode
  · rintro ⟨hknown, hlt⟩
    simp only [State.problems, hbody, State.assertionProblems,
      Std.TreeMap.contains_eq_isSome_getElem?, Option.isSome_iff_ne_none.2 hknown, if_true] at h
    obtain ⟨found, hfound, h⟩ := Checked.bind_eq_exact.1 h
    obtain rfl := Checked.exact.inj h
    obtain ⟨held, tolerance, excess, hheld, htolerance, hcases⟩ := heldProblems_eq_exact hfound
    rw [← htotal held hheld, ← Assertion.value_effectiveTolerance htolerance] at hlt
    rcases hcases with ⟨-, hle⟩ | ⟨rfl, -⟩
    · exact absurd hlt (not_lt.2 hle)
    · exact ⟨_, List.mem_append_right _ (List.mem_singleton_self _), rfl⟩

end Validation

open Validation

/-- **Assertions are decided at the start of the day.** In a sorted ledger, and if nothing rounds, an
assertion is reported to fail if and only if something before it opens its account and what the
transactions of earlier days post to the account and to those below it differs from the number
asserted by more than the tolerance. -/
theorem assertionFailed_iff {rules : Rules} {l before after : List Directive} {db : Directive}
    {b : Assertion} {violations : List Violation}
    (hsort : Directive.sort l = before ++ db :: after) (hbody : db.body = .balance b)
    (h : validate rules (Directive.sort l) = .exact violations) :
    ∃ earlier reported later,
      validate rules before = .exact earlier ∧
      validate rules (before ++ [db]) = .exact (earlier ++ reported) ∧
      violations = earlier ++ reported ++ later ∧
      (∀ v ∈ reported, v.date = db.date ∧ v.location = db.location?) ∧
      ((∃ v ∈ reported, v.problem.code = "E2001") ↔
        (∃ o ∈ before, o.opens b.account) ∧
          b.toleranceValue <
            |posted ((l.filter (·.date < db.date)).flatMap Directive.postings)
                (Account.isWithin · b.account) b.amount.currency - b.amount.number.value|) := by
  have hsorted := Directive.isSorted_sort l
  rw [hsort] at hsorted h
  obtain ⟨s, earlier, problems, later, hs, hproblems, hearlier, hupto, hall⟩ :=
    validate_split hsorted h
  refine ⟨earlier, _, later, hearlier, hupto, hall, by simp, ?_⟩
  have hknown : s.accounts[b.account]? ≠ none ↔ ∃ o ∈ before, o.opens b.account := by
    rw [accounts_run (Checked.gives_true.2 hs), ne_eq, lifetime_eq_none_iff]
    push Not
    rfl
  rw [posted_before_assertion hsort hbody, ← hknown,
    ← exists_assertionFailed_iff hbody hproblems fun held hheld => value_subtreeUnits hs hheld]
  simp

/-- Cash is opened and received on the day before the assertion, and more on its own day. -/
def dayAfter : List Directive := [late, assertion, opening, early]
where
  opening : Directive := (Directive.Body.opening "Assets:Cash" [] none).on 0
  early : Directive := received 100 0
  late : Directive := received 5 1
  assertion : Directive := (Directive.Body.balance asserted).on 1
  asserted : Assertion := ⟨"Assets:Cash", ⟨.ofNat 105, "USD"⟩, none⟩
  received (n day : Nat) : Directive :=
    (Directive.Body.transaction {
      postings := [
        .plain "Assets:Cash:Wallet" (.ofNat n) "USD",
        .plain "Income:Gifts" (Decimal.ofNat n).neg "USD"] }).on day

/-- What is received on the day of the assertion comes too late. -/
theorem assertionFailed_iff_dayAfter :
    ∃ violations reported : List Violation,
      validate {} (Directive.sort dayAfter) = .exact violations ∧ reported.Sublist violations ∧
      ∃ v ∈ reported, v.problem.code = "E2001" := by
  have hsort : Directive.sort dayAfter =
      [dayAfter.opening, dayAfter.early] ++ dayAfter.assertion :: [dayAfter.late] :=
    Directive.sort_eq_of_perm (by decide +kernel) (by decide +kernel)
  have hsorted := Directive.isSorted_sort dayAfter
  obtain ⟨violations, hviolations⟩ :
      ∃ violations, validate {} (Directive.sort dayAfter) = .exact violations := by
    rw [validate_of_isSorted hsorted, hsort]
    decide +kernel
  obtain ⟨earlier, reported, later, -, -, rfl, -, hfailed⟩ :=
    assertionFailed_iff hsort rfl hviolations
  refine ⟨_, reported, hviolations, ?_, hfailed.2 ⟨by decide, ?_⟩⟩
  · rw [List.append_assoc]
    exact (List.sublist_append_left reported later).trans (List.sublist_append_right earlier _)
  · rw [posted_before_assertion hsort rfl]
    decide +kernel

end DoubleEntry
