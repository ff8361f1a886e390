import DoubleEntry.Proofs.Lifetimes
import DoubleEntry.Proofs.Sample

/-!
# The use of accounts

A directive uses the accounts that it names. What is wrong with the use of one is the same for all
kinds of directives (`mem_problems_iff`), but a note is not checked at all.

* `useViolation_iff`: a use is reported if nothing has opened the account before, or if something
  has and something dated earlier has closed it, unless it is in a note.
* `note_unreported`: a note on an account that nothing opens is no problem.
-/

namespace DoubleEntry

namespace Directive

/-- The accounts that a directive uses; opening or closing an account is not a use. -/
def uses (d : Directive) : List Account :=
  match d.body with
  | .transaction t => t.postings.map (·.account)
  | .balance b => [b.account]
  | .pad p => [p.account, p.source]
  | .document account _ => [account]
  | .note account _ => [account]
  | _ => []

/-- Whether the directive is a note. -/
def isNote (d : Directive) : Bool :=
  match d.body with
  | .note .. => true
  | _ => false

end Directive

/-- Whether the problem is one with the use of the account. -/
def Problem.isUseOf (p : Problem) (account : Account) : Bool :=
  match p with
  | .unknownAccount a | .usedBeforeOpening a _ _ | .usedAfterClosing a _ _ => a = account
  | _ => false

namespace Validation

variable {strict : Bool} {rules : Rules} {s : State} {d : Directive} {p : Problem}
  {account : Account} {date : Date} {problems : List Problem}

/-! ## Problems with the use of an account -/

/-- Using an account is a problem of that account. -/
theorem isUseOf_of_mem {a : Account} (h : p ∈ s.useProblems a date) :
    p.isUseOf account ↔ a = account := by
  obtain rfl | ⟨opened, rfl⟩ | ⟨closed, rfl⟩ := of_mem_useProblems h <;> simp [Problem.isUseOf]

theorem ne_of_isUseOf {q : Problem} (hp : p.isUseOf account) (hq : q.isUseOf account = false) :
    p ≠ q := by
  rintro rfl
  rw [hq] at hp
  cases hp

/-- Among the problems with the use of accounts, those with one account. -/
theorem mem_useProblems_iff (hp : p.isUseOf account) (a : Account) :
    p ∈ s.useProblems a date ↔ a = account ∧ p ∈ s.useProblems account date := by
  constructor
  · intro h
    obtain rfl := (isUseOf_of_mem h).1 hp
    exact ⟨rfl, h⟩
  · rintro ⟨rfl, h⟩
    exact h

/-- An account is unknown until it is opened. -/
theorem unknownAccount_mem_iff :
    .unknownAccount account ∈ s.useProblems account date ↔ s.accounts[account]? = none := by
  unfold State.useProblems
  split
  · simp_all
  · split <;> simp_all

/-- An account is used after its closing on the days after it, not on that day. -/
theorem usedAfterClosing_mem_iff {day : Date} :
    .usedAfterClosing account date day ∈ s.useProblems account date ↔
      ∃ life, s.accounts[account]? = some life ∧ life.closed = some day ∧ day < date := by
  unfold State.useProblems
  split
  · simp_all
  · split <;> simp_all

/-! ## Problems with a directive -/

theorem not_mem_currencyProblems (hp : p.isUseOf account) (posting : Posting) :
    p ∉ s.currencyProblems rules posting := by
  unfold State.currencyProblems
  split
  · simp
  · rw [List.mem_append, not_or]
    constructor <;> split
    · simp
    · simpa using ne_of_isUseOf hp rfl
    · simp
    · simpa using ne_of_isUseOf hp rfl

/-- The use of an account is checked once in a transaction, at the first of its postings. -/
theorem mem_postingProblems_iff (hp : p.isUseOf account) {seen : List Account}
    {postings : List Posting} :
    p ∈ s.postingProblems rules date seen postings ↔
      account ∉ seen ∧ account ∈ postings.map (·.account) ∧ p ∈ s.useProblems account date := by
  induction postings generalizing seen with
  | nil => simp [State.postingProblems]
  | cons posting rest ih =>
    have hcurrency : p ∉ s.currencyProblems rules posting := not_mem_currencyProblems hp posting
    have hfirst : (p ∈ if posting.account ∈ seen then [] else s.useProblems posting.account date) ↔
        posting.account = account ∧ account ∉ seen ∧ p ∈ s.useProblems account date := by
      split
      · rename_i hseen
        simp only [List.not_mem_nil, false_iff]
        rintro ⟨rfl, hnew, -⟩
        exact hnew hseen
      · rename_i hseen
        rw [mem_useProblems_iff hp]
        exact and_congr_right fun h => by subst h; simp [hseen]
    simp only [State.postingProblems, List.mem_append, hcurrency, or_false, ih, hfirst,
      List.mem_cons, List.map_cons, not_or]
    by_cases h : posting.account = account
    · simp [h]
    · simp [h, Ne.symm h]

theorem not_mem_residualProblems (hp : p.isUseOf account) {t : Transaction}
    (h : (State.residualProblems t).Gives strict problems) : p ∉ problems := by
  obtain ⟨tolerances, -, h⟩ := Checked.bind_gives.1 h
  obtain ⟨residual, -, h⟩ := Checked.bind_gives.1 h
  obtain rfl := Checked.exact_gives.1 h
  intro hmem
  obtain ⟨e, -, rfl⟩ := List.mem_map.1 hmem
  exact ne_of_isUseOf hp rfl rfl

/-- Each account of a transaction is looked at, at its first posting. -/
theorem mem_transactionProblems_iff (hp : p.isUseOf account) {t : Transaction}
    (h : (s.transactionProblems rules date t).Gives strict problems) :
    p ∈ problems ↔ account ∈ t.postings.map (·.account) ∧ p ∈ s.useProblems account date := by
  unfold State.transactionProblems at h
  split at h
  · rename_i hempty
    obtain rfl := Checked.exact_gives.1 h
    simpa [List.isEmpty_iff.1 hempty] using ne_of_isUseOf hp rfl
  · obtain ⟨found, hfound, h⟩ := Checked.bind_gives.1 h
    obtain rfl := Checked.exact_gives.1 h
    simp [mem_postingProblems_iff hp, not_mem_residualProblems hp hfound]

theorem mem_assertionProblems_iff (hp : p.isUseOf account) {b : Assertion}
    (h : (s.assertionProblems date b).Gives strict problems) :
    p ∈ problems ↔ account = b.account ∧ p ∈ s.useProblems account date := by
  have huse : p ∈ s.useProblems b.account date ↔
      b.account = account ∧ p ∈ s.useProblems account date := mem_useProblems_iff hp b.account
  unfold State.assertionProblems at h
  split at h
  · obtain ⟨found, hfound, h⟩ := Checked.bind_gives.1 h
    obtain rfl := Checked.exact_gives.1 h
    obtain ⟨held, -, hfound⟩ := Checked.bind_gives.1 hfound
    obtain ⟨tolerance, -, hfound⟩ := Checked.bind_gives.1 hfound
    obtain ⟨excess, -, hfound⟩ := Checked.bind_gives.1 hfound
    obtain rfl := Checked.exact_gives.1 hfound
    have hheld : p ∉ if excess.abs ≤ tolerance then []
        else [.assertionFailed b.account b.amount held excess] := by
      split
      · simp
      · simpa using ne_of_isUseOf hp rfl
    rw [List.mem_append, or_iff_left hheld, huse, eq_comm]
  · obtain rfl := Checked.exact_gives.1 h
    rw [huse, eq_comm]

/-- A pad uses both of its accounts. -/
theorem mem_padProblems_iff (hp : p.isUseOf account) {pad : Pad} :
    p ∈ s.padProblems date pad ↔
      account ∈ [pad.account, pad.source] ∧ p ∈ s.useProblems account date := by
  unfold State.padProblems
  rw [List.mem_append, mem_useProblems_iff hp pad.account]
  split
  · rename_i hsame
    simp [hsame, eq_comm]
  · rw [mem_useProblems_iff hp pad.source]
    simp only [List.mem_cons, List.not_mem_nil, or_false, or_and_right, eq_comm]

/-- A document uses its account, whether or not its file is there. -/
theorem mem_documentProblems_iff (hp : p.isUseOf account) {a : Account} {path : String} :
    p ∈ s.documentProblems rules date a path ↔
      account = a ∧ p ∈ s.useProblems account date := by
  unfold State.documentProblems
  rw [List.mem_append, mem_useProblems_iff hp, or_iff_left, eq_comm]
  split
  · simp
  · dsimp only
    split
    · simp
    · simpa using ne_of_isUseOf hp rfl

/-- What is found wrong with the use of an account: the same in all directives that use it, but
nothing in a note. -/
theorem mem_problems_iff (hp : p.isUseOf account)
    (h : (s.problems rules d).Gives strict problems) :
    p ∈ problems ↔ ¬d.isNote ∧ account ∈ d.uses ∧ p ∈ s.useProblems account d.date := by
  obtain ⟨date, metadata, body⟩ := d
  cases body with
  | transaction t => simpa [Directive.isNote, Directive.uses] using mem_transactionProblems_iff hp h
  | balance b => simpa [Directive.isNote, Directive.uses] using mem_assertionProblems_iff hp h
  | pad pad =>
    obtain rfl := Checked.exact_gives.1 h
    simpa [Directive.isNote, Directive.uses] using mem_padProblems_iff hp
  | document a path =>
    obtain rfl := Checked.exact_gives.1 h
    simpa [Directive.isNote, Directive.uses] using mem_documentProblems_iff hp
  | opening a currencies booking =>
    obtain rfl := Checked.exact_gives.1 h
    unfold State.openingProblems
    split
    · simpa [Directive.uses] using ne_of_isUseOf hp rfl
    · simp [Directive.uses]
  | closing a =>
    obtain rfl := Checked.exact_gives.1 h
    unfold State.closingProblems
    split
    · split
      · simpa [Directive.uses] using ne_of_isUseOf hp rfl
      · simp [Directive.uses]
    · simpa [Directive.uses] using ne_of_isUseOf hp rfl
  | note a comment =>
    obtain rfl := Checked.exact_gives.1 h
    simp [Directive.isNote]
  | _ =>
    obtain rfl := Checked.exact_gives.1 h
    simp [Directive.uses]

end Validation

open Validation

/-- **Uses of accounts are checked, except in notes.** A directive reports that an account it uses
is unknown if and only if nothing gone through before it opens the account. It reports that the
account is closed if and only if something before it opens the account and something later, dated
before the directive, closes it. A note reports neither. -/
theorem useViolation_iff {rules : Rules} {l before after : List Directive} {d : Directive}
    {violations : List Violation} (hl : Directive.byDate l = before ++ d :: after)
    (h : (validate rules l).value? = some violations) :
    ∃ earlier reported later,
      (validate rules before).value? = some earlier ∧
      (validate rules (before ++ [d])).value? = some (earlier ++ reported) ∧
      violations = earlier ++ reported ++ later ∧
      (∀ v ∈ reported, v.date = d.date ∧ v.location = d.location?) ∧
      ∀ account ∈ d.uses,
        ((∃ v ∈ reported, v.problem = .unknownAccount account ∧ v.problem.code = "E1001") ↔
          ¬d.isNote ∧ ∀ o ∈ before, ¬o.opens account) ∧
        ((∃ v ∈ reported, ∃ day, v.problem = .usedAfterClosing account d.date day ∧
            v.problem.code = "E1003") ↔
          ¬d.isNote ∧ ∃ o k, [o, k].Sublist before ∧ o.opens account ∧ k.closes account ∧
            k.date < d.date) := by
  obtain ⟨s, earlier, problems, later, hs, hproblems, hearlier, hupto, hall⟩ :=
    validate_byDate hl (Checked.gives_false.2 h)
  have hsorted := Directive.pairwise_byDate l
  rw [hl] at hsorted
  refine ⟨earlier, _, later, Checked.gives_false.1 hearlier, Checked.gives_false.1 hupto, hall,
    by simp, fun account huse => ⟨?_, ?_⟩⟩
  · have hp : (Problem.unknownAccount account).isUseOf account := by simp [Problem.isUseOf]
    have hmem := mem_problems_iff hp hproblems
    rw [unknownAccount_mem_iff, accounts_run hs, lifetime_eq_none_iff] at hmem
    simpa [huse, Problem.code] using hmem
  · have hp (day : Date) : (Problem.usedAfterClosing account d.date day).isUseOf account := by
      simp [Problem.isUseOf]
    have hmem (day : Date) := mem_problems_iff (hp day) hproblems
    simp only [usedAfterClosing_mem_iff, accounts_run hs] at hmem
    rw [← closed_lt_iff (hsorted.sublist (List.sublist_append_left before _))]
    constructor
    · rintro ⟨v, hv, day, hday, -⟩
      obtain ⟨p, hp, rfl⟩ := List.mem_map.1 hv
      obtain rfl : p = .usedAfterClosing account d.date day := hday
      obtain ⟨hnote, -, life, hlife⟩ := (hmem day).1 hp
      exact ⟨hnote, life, day, hlife⟩
    · rintro ⟨hnote, life, day, hlife⟩
      exact ⟨_, List.mem_map_of_mem ((hmem day).2 ⟨hnote, huse, life, hlife⟩), day, rfl, rfl⟩

/-- A closed account and one that nothing opens are used. -/
def lateUse : List Directive := [opening, closing, use]
where
  opening : Directive := (Directive.Body.opening "Assets:Cash" [] none).on 0
  closing : Directive := (Directive.Body.closing "Assets:Cash").on 1
  use : Directive :=
    (Directive.Body.transaction {
      postings := [
        .plain "Assets:Cash" (Decimal.ofNat 30).neg "USD",
        .plain "Expenses:Food" (.ofNat 30) "USD"] }).on 2

theorem byDate_lateUse : Directive.byDate lateUse = lateUse :=
  Directive.byDate_of_pairwise (by decide +kernel)

theorem useViolation_iff_lateUse :
    ∃ violations reported : List Violation, validate {} lateUse = .exact violations ∧
      reported.Sublist violations ∧
      (∃ v ∈ reported, v.problem = .unknownAccount "Expenses:Food" ∧ v.problem.code = "E1001") ∧
      ∃ v ∈ reported, ∃ day, v.problem = .usedAfterClosing "Assets:Cash" lateUse.use.date day ∧
        v.problem.code = "E1003" := by
  obtain ⟨violations, hviolations⟩ : ∃ violations, validate {} lateUse = .exact violations := by
    rw [validate_eq_run, byDate_lateUse]
    decide +kernel
  have hl : Directive.byDate lateUse = [lateUse.opening, lateUse.closing] ++ lateUse.use :: [] :=
    byDate_lateUse
  obtain ⟨earlier, reported, later, -, -, rfl, -, huses⟩ :=
    useViolation_iff hl (by rw [hviolations]; rfl)
  refine ⟨_, reported, hviolations, ?_, ?_, ?_⟩
  · rw [List.append_assoc]
    exact (List.sublist_append_left reported later).trans (List.sublist_append_right earlier _)
  · exact (huses "Expenses:Food" (by decide)).1.2 ⟨by decide, by decide⟩
  · exact (huses "Assets:Cash" (by decide)).2.2
      ⟨by decide, _, _, .refl _, by decide, by decide, by decide⟩

/-- A note on an account that nothing opens. -/
def strayNote : Directive := (Directive.Body.note "Assets:Cash" "hello").on 0

/-- A note for an account that was never opened is not reported. -/
theorem note_unreported :
    Directive.byDate [strayNote] = [] ++ strayNote :: [] ∧ "Assets:Cash" ∈ strayNote.uses ∧
      (∀ o ∈ ([] : List Directive), ¬o.opens "Assets:Cash") ∧
      validate {} [strayNote] = .exact [] := by
  have hl : Directive.byDate [strayNote] = [strayNote] :=
    Directive.byDate_of_pairwise (List.pairwise_singleton _ _)
  refine ⟨hl, by decide, by simp, ?_⟩
  rw [validate_eq_run, hl]
  rfl

end DoubleEntry
