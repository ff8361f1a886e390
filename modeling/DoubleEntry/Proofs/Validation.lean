import DoubleEntry.Proofs.Holdings
import DoubleEntry.Proofs.Order
import DoubleEntry.Validation.Basic

/-!
# How directives are validated

A step of the validation moves the accounts and reports problems, each apart from the other
(`Validation.step_gives`).

* `movedBy_run`: the accounts hold what the directives gone through have moved.
* `validate_append`: what is reported for a ledger, split at one of its directives.
-/

namespace DoubleEntry

/-- The tolerance that counts is the written one, or half a unit in the last place. -/
theorem Assertion.effectiveTolerance_cases {b : Assertion} {t : Decimal}
    (h : b.effectiveTolerance = .exact t) :
    b.tolerance = some t ∨
      b.tolerance = none ∧ t.value = 5 / 10 ^ (b.amount.number.scale + 1) := by
  unfold effectiveTolerance at h
  cases ht : b.tolerance with
  | none =>
    rw [ht] at h
    have h : Decimal.halfUnit b.amount.number.scale = .exact t := h
    exact .inr ⟨rfl, Decimal.value_halfUnit (by rw [h]; rfl)⟩
  | some written =>
    obtain rfl : written = t := by simpa [ht] using h
    exact .inl rfl

namespace Validation

variable {strict : Bool} {rules : Rules} {s s' : State} {vs vs' : List Violation} {d : Directive}
  {l : List Directive}

@[simp] theorem holdings_opening (account : Account) (date : Date) (currencies : List Currency) :
    (s.opening account date currencies).holdings = s.holdings := by
  unfold State.opening
  split <;> rfl

@[simp] theorem holdings_closing (account : Account) (date : Date) :
    (s.closing account date).holdings = s.holdings := by
  unfold State.closing
  split
  · split <;> rfl
  · rfl

/-- Only the postings of a directive move anything. -/
theorem next_gives (h : (s.next d).Gives strict s') :
    (s.holdings.addPostings d.postings).Gives strict s'.holdings := by
  unfold State.next at h
  split at h
  · rename_i hbody
    obtain rfl := Checked.exact_gives.1 h
    simp [Directive.postings_eq_nil, hbody]
  · rename_i hbody
    obtain rfl := Checked.exact_gives.1 h
    simp [Directive.postings_eq_nil, hbody]
  · rename_i hbody
    obtain rfl := Checked.exact_gives.1 h
    simp [Directive.postings_eq_nil, hbody]
  · rename_i t hbody
    obtain ⟨h', hh, h⟩ := Checked.bind_gives.1 h
    obtain rfl := Checked.exact_gives.1 h
    rwa [Directive.postings_of_transaction hbody]
  · rename_i ht
    obtain rfl := Checked.exact_gives.1 h
    simp [Directive.postings_eq_nil ht]

/-- A step goes on with the next state, and reports what is wrong with the directive. -/
theorem next_of_step (h : (step rules (s, vs) d).Gives strict (s', vs')) :
    (s.next d).Gives strict s' ∧ ∃ problems, (s.problems rules d).Gives strict problems ∧
      vs' = vs ++ problems.map (⟨·, d.date, d.location?⟩) := by
  obtain ⟨problems, hproblems, h⟩ := Checked.bind_gives.1 h
  obtain ⟨next, hnext, h⟩ := Checked.bind_gives.1 h
  obtain ⟨rfl, rfl⟩ : next = s' ∧ vs ++ problems.map (⟨·, d.date, d.location?⟩) = vs' := by
    simpa using Checked.exact_gives.1 h
  exact ⟨hnext, problems, hproblems, rfl⟩

/-- What a step does to the accounts, and what it reports. -/
theorem step_gives (h : (step rules (s, vs) d).Gives strict (s', vs')) :
    (s.holdings.addPostings d.postings).Gives strict s'.holdings ∧
      ∃ problems, (s.problems rules d).Gives strict problems ∧
        vs' = vs ++ problems.map (⟨·, d.date, d.location?⟩) := by
  obtain ⟨hnext, problems, hproblems, rfl⟩ := next_of_step h
  exact ⟨next_gives hnext, problems, hproblems, rfl⟩

/-- The accounts hold what the directives gone through have moved. -/
theorem movedBy_run (h : (run rules l).Gives strict (s, vs)) : s.holdings.MovedBy strict l := by
  refine ⟨l, .refl l, ?_⟩
  have hinv := Checked.foldlM_invariant
    (fun seen (before : State × List Violation) =>
      (Holdings.addPostings {} (seen.flatMap Directive.postings)).Gives strict before.1.holdings)
    (by simp) ?_ h
  · exact hinv
  rintro seen ⟨s, vs⟩ d ⟨s', vs'⟩ hs hstep
  rw [List.flatMap_append, Holdings.addPostings_append]
  exact Checked.bind_gives.2 ⟨s.holdings, hs, by simpa using (step_gives hstep).1⟩

theorem value_subtreeUnits {account : Account} {c : Currency} {total : Decimal}
    (h : run rules l = .exact (s, vs))
    (htotal : s.holdings.subtreeUnits account c = .exact total) :
    total.value = posted (l.flatMap Directive.postings) (Account.isWithin · account) c := by
  rw [Holdings.value_subtreeUnits htotal, (movedBy_run (Checked.gives_true.2 h)).total]

/-- What was reported stays reported. -/
theorem violations_prefix (h : (l.foldlM (step rules) (s, vs)).Gives strict (s', vs')) :
    vs <+: vs' := by
  refine Checked.foldlM_invariant (fun _ (after : State × List Violation) => vs <+: after.2)
    (List.prefix_refl vs) ?_ h
  rintro _ ⟨s₁, vs₁⟩ d ⟨s₂, vs₂⟩ hprefix hstep
  obtain ⟨-, problems, -, rfl⟩ := step_gives hstep
  exact hprefix.trans (List.prefix_append _ _)

/-! ## Assertions -/

/-- What can be wrong with the use of an account: it was never opened, or this is not its day. -/
theorem of_mem_useProblems {account : Account} {date : Date} {p : Problem}
    (h : p ∈ s.useProblems account date) :
    p = .unknownAccount account ∨ (∃ opened, p = .usedBeforeOpening account date opened) ∨
      ∃ closed, p = .usedAfterClosing account date closed := by
  unfold State.useProblems at h
  split at h
  · exact .inl (List.mem_singleton.1 h)
  · next life _ =>
    rcases List.mem_append.1 h with h | h
    · split at h
      · exact .inr (.inl ⟨life.opened, List.mem_singleton.1 h⟩)
      · cases h
    · obtain ⟨closed, -, rfl⟩ := List.mem_map.1 h
      exact .inr (.inr ⟨closed, rfl⟩)

theorem code_of_mem_useProblems {account : Account} {date : Date} {p : Problem}
    (h : p ∈ s.useProblems account date) : p.code ∈ ["E1001", "E1003"] := by
  obtain rfl | ⟨opened, rfl⟩ | ⟨closed, rfl⟩ := of_mem_useProblems h <;> simp [Problem.code]

theorem code_ne_of_mem_useProblems {account : Account} {date : Date} {p : Problem}
    (h : p ∈ s.useProblems account date) : p.code ≠ "E2001" := by
  intro hcode
  simpa [hcode] using code_of_mem_useProblems h

/-- What is found wrong with the number that an assertion claims: nothing if what is held differs
from it by at most the tolerance, or else that it fails. -/
theorem heldProblems_eq_exact {b : Assertion} {problems : List Problem}
    (h : s.heldProblems b = .exact problems) :
    ∃ held tolerance excess,
      s.holdings.subtreeUnits b.account b.amount.currency = .exact held ∧
      b.effectiveTolerance = .exact tolerance ∧
      (problems = [] ∧ |held.value - b.amount.number.value| ≤ tolerance.value ∨
        problems = [.assertionFailed b.account b.amount held excess] ∧
          tolerance.value < |held.value - b.amount.number.value|) := by
  obtain ⟨held, hheld, h⟩ := Checked.bind_eq_exact.1 h
  obtain ⟨tolerance, htolerance, h⟩ := Checked.bind_eq_exact.1 h
  obtain ⟨excess, hexcess, h⟩ := Checked.bind_eq_exact.1 h
  obtain rfl := Checked.exact.inj h
  refine ⟨held, tolerance, excess, hheld, htolerance, ?_⟩
  rw [← Decimal.value_sub hexcess, ← Decimal.value_abs, ← Decimal.le_iff, ← not_le,
    ← Decimal.le_iff]
  split
  · rename_i hle
    exact .inl ⟨rfl, hle⟩
  · rename_i hlt
    exact .inr ⟨rfl, hlt⟩

/-- What an assertion that fails has found. -/
theorem exists_of_assertionFailed {b : Assertion} {problems : List Problem} {p : Problem}
    (hbody : d.body = .balance b) (h : s.problems rules d = .exact problems) (hp : p ∈ problems)
    (hcode : p.code = "E2001") :
    ∃ held tolerance, s.holdings.subtreeUnits b.account b.amount.currency = .exact held ∧
      b.effectiveTolerance = .exact tolerance ∧
      tolerance.value < |held.value - b.amount.number.value| := by
  simp only [State.problems, hbody, State.assertionProblems] at h
  split at h
  · obtain ⟨found, hfound, h⟩ := Checked.bind_eq_exact.1 h
    obtain rfl := Checked.exact.inj h
    have hp := (List.mem_append.1 hp).resolve_left fun hp => code_ne_of_mem_useProblems hp hcode
    obtain ⟨held, tolerance, excess, hheld, htolerance, hcases⟩ := heldProblems_eq_exact hfound
    refine ⟨held, tolerance, hheld, htolerance, ?_⟩
    rcases hcases with ⟨rfl, -⟩ | ⟨-, hlt⟩
    · cases hp
    · exact hlt
  · obtain rfl := Checked.exact.inj h
    exact absurd hcode (code_ne_of_mem_useProblems hp)

end Validation

/-! ## Ledgers -/

open Validation

/-- Directives in the order in which they are gone through. -/
def Directive.byDate (l : List Directive) : List Directive := l.mergeSort fun a b => a.date ≤ b.date

/-- The dates of directives in order do not decrease. -/
theorem Directive.pairwise_byDate (l : List Directive) :
    (byDate l).Pairwise fun a b => a.date ≤ b.date := by
  have h : (byDate l).Pairwise fun a b => decide (a.date ≤ b.date) :=
    List.pairwise_mergeSort
      (fun a b c hab hbc => by simpa using (of_decide_eq_true hab).trans (of_decide_eq_true hbc))
      (fun a b => by simpa using le_total a.date b.date) l
  exact h.imp of_decide_eq_true

theorem Directive.byDate_of_pairwise {l : List Directive}
    (h : l.Pairwise fun a b => a.date ≤ b.date) : byDate l = l :=
  List.mergeSort_of_pairwise (h.imp decide_eq_true)

theorem validate_eq_run (rules : Rules) (l : List Directive) :
    validate rules l = Prod.snd <$> Validation.run rules (Directive.byDate l) := rfl

/-- A sorted ledger is gone through as it is. -/
theorem validate_of_isSorted {rules : Rules} {l : List Directive} (h : Directive.IsSorted l) :
    validate rules l = Prod.snd <$> Validation.run rules l := by
  rw [validate_eq_run, Directive.byDate_of_pairwise (h.imp Directive.date_le_of_rank_le)]

/-- What is reported for a ledger, split at one of its directives: what the directives gone through
before it have, what it has after them, and the rest. -/
theorem validate_byDate {strict : Bool} {rules : Rules} {l before after : List Directive}
    {d : Directive} {violations : List Violation}
    (hl : Directive.byDate l = before ++ d :: after)
    (h : (validate rules l).Gives strict violations) :
    ∃ s earlier problems later,
      (Validation.run rules before).Gives strict (s, earlier) ∧
      (s.problems rules d).Gives strict problems ∧
      (validate rules before).Gives strict earlier ∧
      (validate rules (before ++ [d])).Gives strict
        (earlier ++ problems.map (⟨·, d.date, d.location?⟩)) ∧
      violations = earlier ++ problems.map (⟨·, d.date, d.location?⟩) ++ later := by
  have hsorted := Directive.pairwise_byDate l
  rw [hl] at hsorted
  have hbefore := Directive.byDate_of_pairwise
    (hsorted.sublist (List.sublist_append_left before (d :: after)))
  have hupto : Directive.byDate (before ++ [d]) = before ++ [d] :=
    Directive.byDate_of_pairwise (hsorted.sublist (List.Sublist.append_left (by simp) before))
  rw [validate_eq_run, hl] at h
  obtain ⟨⟨s'', vs''⟩, hrun, h⟩ := Checked.bind_gives.1 h
  obtain rfl := Checked.exact_gives.1 h
  rw [Validation.run, List.foldlM_append, Checked.bind_gives] at hrun
  obtain ⟨⟨s, earlier⟩, hs, hrun⟩ := hrun
  rw [List.foldlM_cons, Checked.bind_gives] at hrun
  obtain ⟨⟨s', vs'⟩, hd, hafter⟩ := hrun
  obtain ⟨-, problems, hproblems, rfl⟩ := step_gives hd
  obtain ⟨later, rfl⟩ := violations_prefix hafter
  refine ⟨s, earlier, problems, later, hs, hproblems, ?_, ?_, rfl⟩
  · rw [validate_eq_run, hbefore]
    exact Checked.bind_gives.2 ⟨_, hs, Checked.exact_gives.2 rfl⟩
  · have hrun : (Validation.run rules (before ++ [d])).Gives strict
        (s', earlier ++ problems.map (⟨·, d.date, d.location?⟩)) := by
      rw [Validation.run, List.foldlM_append]
      exact Checked.bind_gives.2
        ⟨_, hs, Checked.bind_gives.2 ⟨_, hd, Checked.exact_gives.2 rfl⟩⟩
    rw [validate_eq_run, hupto]
    exact Checked.bind_gives.2 ⟨_, hrun, Checked.exact_gives.2 rfl⟩

/-- The same for a sorted ledger in which nothing rounds. -/
theorem validate_split {rules : Rules} {before after : List Directive} {d : Directive}
    {violations : List Violation} (hsorted : Directive.IsSorted (before ++ d :: after))
    (h : validate rules (before ++ d :: after) = .exact violations) :
    ∃ s earlier problems later,
      Validation.run rules before = .exact (s, earlier) ∧ s.problems rules d = .exact problems ∧
      validate rules before = .exact earlier ∧
      validate rules (before ++ [d]) =
        .exact (earlier ++ problems.map (⟨·, d.date, d.location?⟩)) ∧
      violations = earlier ++ problems.map (⟨·, d.date, d.location?⟩) ++ later := by
  have hl := Directive.byDate_of_pairwise (hsorted.imp Directive.date_le_of_rank_le)
  obtain ⟨s, earlier, problems, later, h⟩ := validate_byDate hl (Checked.gives_true.2 h)
  exact ⟨s, earlier, problems, later, by simpa only [Checked.gives_true] using h⟩

end DoubleEntry
