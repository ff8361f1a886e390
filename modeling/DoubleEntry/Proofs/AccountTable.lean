import DoubleEntry.Proofs.AccountUse
import DoubleEntry.Proofs.Ends

/-!
# What validation knows of accounts

Directives are gone through in the order of their dates, so that nothing is known of an account
ahead of the directive gone through: what it has opened and closed was opened and closed by that
day. That depends on the order, and every step keeps it (`State.By.next`). What is known is only
added to (`State.extends_next`).

* `accounts_by_date`: both of a whole ledger, and so no account is found in use before it
  opens.
-/

namespace DoubleEntry

namespace Validation

variable {strict : Bool} {rules : Rules} {s s' s'' : State} {vs vs' : List Violation}
  {d : Directive} {l : List Directive} {account : Account} {life life' life'' : Lifetime}
  {day day' : Date}

/-! ## One account -/

/-- The account opened, and closed if it did, by the day, and it closed when it was open. -/
structure Lifetime.By (life : Lifetime) (day : Date) : Prop where
  opened_le : life.opened ≤ day
  closed : ∀ k, life.closed = some k → life.opened ≤ k ∧ k ≤ day

/-- At most that the account was closed is new. -/
structure Lifetime.Extends (later earlier : Lifetime) : Prop where
  opened : later.opened = earlier.opened
  currencies : later.currencies = earlier.currencies
  closed : ∀ k, earlier.closed = some k → later.closed = some k

namespace Lifetime

theorem By.mono (h : life.By day) (hle : day ≤ day') : life.By day' :=
  ⟨h.opened_le.trans hle, fun k hk => (h.closed k hk).imp_right fun hk => hk.trans hle⟩

theorem Extends.refl (life : Lifetime) : life.Extends life := ⟨rfl, rfl, fun _ => id⟩

theorem Extends.trans (h : life''.Extends life') (h' : life'.Extends life) :
    life''.Extends life :=
  ⟨h.opened.trans h'.opened, h.currencies.trans h'.currencies,
    fun k hk => h.closed k (h'.closed k hk)⟩

/-- A directive dated when the account has opened, or later, closes it in its lifetime. -/
theorem By.after {known : Option Lifetime} (hknown : ∀ life, known = some life → life.By d.date)
    (h : Lifetime.after account known d = some life) : life.By d.date := by
  unfold Lifetime.after at h
  split at h
  · -- Nothing is known of the account, and it opens on the day.
    split at h
    · split at h
      · obtain rfl := Option.some.inj h
        exact ⟨le_rfl, by simp⟩
      · cases h
    · cases h
  · rename_i before
    have hbefore : before.By d.date := hknown before rfl
    split at h
    · obtain rfl := Option.some.inj h
      refine ⟨hbefore.opened_le, fun k hk => ?_⟩
      obtain rfl := Option.some.inj hk
      exact ⟨hbefore.opened_le, le_rfl⟩
    · obtain rfl := Option.some.inj h
      exact hbefore

/-- What is known of an account is not forgotten: it does not open or reopen once more. -/
theorem exists_extends_after (account : Account) (life : Lifetime) (d : Directive) :
    ∃ life', Lifetime.after account (some life) d = some life' ∧ life'.Extends life := by
  simp only [Lifetime.after]
  split
  · rename_i hcloses
    refine ⟨_, rfl, rfl, rfl, fun k hk => ?_⟩
    rw [hcloses.1] at hk
    cases hk
  · exact ⟨life, rfl, .refl life⟩

end Lifetime

/-! ## All accounts -/

/-- What is known of accounts is from the day or before. -/
def State.By (s : State) (day : Date) : Prop :=
  ∀ (account : Account) (life : Lifetime), s.accounts[account]? = some life → life.By day

/-- What was known of accounts is known still, and at most that they were closed is new. -/
def State.Extends (later earlier : State) : Prop :=
  ∀ (account : Account) (life : Lifetime), earlier.accounts[account]? = some life →
    ∃ life' : Lifetime, later.accounts[account]? = some life' ∧ life'.Extends life

namespace State

theorem By.mono (h : s.By day) (hle : day ≤ day') : s.By day' :=
  fun account life hlife => (h account life hlife).mono hle

theorem Extends.refl (s : State) : s.Extends s :=
  fun _ life hlife => ⟨life, hlife, .refl life⟩

theorem Extends.trans (h : s''.Extends s') (h' : s'.Extends s) : s''.Extends s := by
  intro account life hlife
  obtain ⟨life', hlife', hextends'⟩ := h' account life hlife
  obtain ⟨life'', hlife'', hextends⟩ := h account life' hlife'
  exact ⟨life'', hlife'', hextends.trans hextends'⟩

theorem By.next (h : s.By d.date) (hnext : (s.next d).Gives strict s') : s'.By d.date := by
  intro account life hlife
  rw [accounts_next hnext] at hlife
  exact Lifetime.By.after (h account) hlife

theorem extends_next (hnext : (s.next d).Gives strict s') : s'.Extends s := by
  intro account life hlife
  rw [accounts_next hnext, hlife]
  exact Lifetime.exists_extends_after account life d

/-- Nothing known from the day or before opens an account after that day. -/
theorem By.usedBeforeOpening_notMem (h : s.By day) (account account' : Account)
    (used opened : Date) : .usedBeforeOpening account' used opened ∉ s.useProblems account day := by
  unfold State.useProblems
  split
  · simp
  · rename_i life hlife
    have hopened : ¬day < life.opened := not_lt.2 (h account life hlife).opened_le
    simp [hopened]

theorem By.usedBeforeOpening_notMem_problems {problems : List Problem} (h : s.By d.date)
    (hproblems : (s.problems rules d).Gives strict problems) (account : Account)
    (used opened : Date) : .usedBeforeOpening account used opened ∉ problems := by
  have hp : (Problem.usedBeforeOpening account used opened).isUseOf account := by
    simp [Problem.isUseOf]
  rw [mem_problems_iff hp hproblems]
  rintro ⟨-, -, hmem⟩
  exact h.usedBeforeOpening_notMem account account used opened hmem

end State

/-! ## Runs -/

/-- After directives in order, all that is known is from the day of the last or before, and none
of them was found to use an account before it opens. -/
theorem by_run (hl : l.Pairwise fun a b => a.date ≤ b.date)
    (h : (run rules l).Gives strict (s, vs)) :
    (∀ day, (∀ k ∈ l, k.date ≤ day) → s.By day) ∧
      ∀ v ∈ vs, ∀ account used opened, v.problem ≠ .usedBeforeOpening account used opened := by
  have hinv := Checked.foldlM_invariant
    (fun seen (now : State × List Violation) => (seen.Pairwise fun a b => a.date ≤ b.date) →
      (∀ day, (∀ k ∈ seen, k.date ≤ day) → now.1.By day) ∧
        ∀ v ∈ now.2, ∀ account used opened, v.problem ≠ .usedBeforeOpening account used opened)
    ?_ ?_ h
  · exact hinv hl
  · intro _
    exact ⟨fun day _ account life hlife => by simp at hlife, by simp⟩
  · rintro seen ⟨s, vs⟩ d ⟨s', vs'⟩ ih hstep hsorted
    obtain ⟨hseen, -, hd⟩ := List.pairwise_append.1 hsorted
    obtain ⟨hbefore, hreported⟩ := ih hseen
    have hs : s.By d.date := hbefore d.date fun k hk => hd k hk d (by simp)
    obtain ⟨hnext, problems, hproblems, rfl⟩ := next_of_step hstep
    refine ⟨fun day hday => (hs.next hnext).mono (hday d (by simp)), fun v hv => ?_⟩
    rcases List.mem_append.1 hv with hv | hv
    · exact hreported v hv
    · obtain ⟨p, hp, rfl⟩ := List.mem_map.1 hv
      rintro account used opened rfl
      exact hs.usedBeforeOpening_notMem_problems hproblems account used opened hp

/-- Going through more directives adds to what is known. -/
theorem extends_run {more : List Directive} (h : (run rules l).Gives strict (s, vs))
    (hmore : (run rules (l ++ more)).Gives strict (s', vs')) : s'.Extends s := by
  rw [run, List.foldlM_append] at hmore
  obtain ⟨now, hnow, hmore⟩ := Checked.bind_gives.1 hmore
  obtain rfl : now = (s, vs) := 
    Option.some.inj ((Checked.Gives.value? hnow).symm.trans (Checked.Gives.value? h))
  refine Checked.foldlM_invariant (fun _ (now : State × List Violation) => now.1.Extends s)
    (.refl s) ?_ hmore
  rintro _ ⟨s₁, vs₁⟩ d ⟨s₂, vs₂⟩ hextends hstep
  exact (State.extends_next (next_of_step hstep).1).trans hextends

/-! ## Ledgers -/

/-- Going through a ledger in the order of its dates, validation comes from the directives before
to the next one, and knows the state. -/
structure Visits (rules : Rules) (l before : List Directive) (d : Directive) (s : State) :
    Prop where
  along : before ++ [d] <+: Directive.byDate l
  reached : ∃ reported, (run rules before).value? = some (s, reported)

namespace Visits

variable {before before' : List Directive} {d' : Directive}

/-- Nothing is known ahead of the directive that one comes to. -/
theorem by_date (h : Visits rules l before d s) : s.By d.date := by
  obtain ⟨reported, hreached⟩ := h.reached
  have hsorted := (Directive.pairwise_byDate l).sublist h.along.sublist
  obtain ⟨hbefore, -, hd⟩ := List.pairwise_append.1 hsorted
  exact (by_run hbefore (Checked.gives_false.2 hreached)).1 d.date fun k hk => hd k hk d (by simp)

theorem extends_of_prefix (h : Visits rules l before d s) (h' : Visits rules l before' d' s')
    (hbefore : before <+: before') : s'.Extends s := by
  obtain ⟨more, rfl⟩ := hbefore
  obtain ⟨reported, hreached⟩ := h.reached
  obtain ⟨reported', hreached'⟩ := h'.reached
  exact extends_run (Checked.gives_false.2 hreached) (Checked.gives_false.2 hreached')

end Visits

end Validation

open Validation

/-- **The accounts known never run ahead of the ledger.** Whatever directive validation comes to,
every account known before it and after it opened on its day or earlier, and if closed then in
between. Later on the account is known with the same day of opening and the same currencies, and
closed if it was closed. So no directive is found to use an account before it opens. -/
theorem accounts_by_date (rules : Rules) (l : List Directive) :
    (∀ before d s, Visits rules l before d s →
      s.By d.date ∧
      (∀ (account : Account) (life : Lifetime), s.accounts[account]? = some life →
        ¬d.date < life.opened) ∧
      (∀ account used opened, .usedBeforeOpening account used opened ∉
        s.useProblems account d.date) ∧
      ∀ s', (s.next d).value? = some s' → s'.By d.date ∧ s'.Extends s) ∧
    (∀ before d s before' d' s', Visits rules l before d s → Visits rules l before' d' s' →
      before <+: before' → s'.Extends s) ∧
    ∀ violations, (validate rules l).value? = some violations →
      ∀ v ∈ violations, ∀ account used opened,
        v.problem ≠ .usedBeforeOpening account used opened := by
  refine ⟨fun before d s hvisit => ?_, fun _ _ _ _ _ _ => Visits.extends_of_prefix,
    fun violations h => ?_⟩
  · have hs : s.By d.date := hvisit.by_date
    refine ⟨hs, fun account life hlife => not_lt.2 (hs account life hlife).opened_le,
      fun account => hs.usedBeforeOpening_notMem account account, fun s' hs' => ?_⟩
    have hnext : (s.next d).Gives false s' := Checked.gives_false.2 hs'
    exact ⟨hs.next hnext, State.extends_next hnext⟩
  · rw [validate_eq_run] at h
    obtain ⟨⟨s, vs⟩, hrun, h⟩ := Checked.bind_gives.1 (Checked.gives_false.2 h)
    obtain rfl := Checked.exact_gives.1 h
    exact (by_run (Directive.pairwise_byDate l) hrun).2

/-- Directives of which each is on a day of its own, in any order, are gone through in that of the
days. -/
theorem Directive.byDate_of_perm {l l' : List Directive} (hperm : l.Perm l')
    (h : l'.Pairwise fun a b => a.date < b.date) : byDate l = l' := by
  have hdays : (l'.map (·.date)).Nodup := List.pairwise_map.2 (h.imp ne_of_lt)
  refine List.Perm.eq_of_pairwise (fun a b ha hb hab hba => ?_) (pairwise_byDate l)
    (h.imp le_of_lt) ((List.mergeSort_perm l _).trans hperm)
  have ha : a ∈ l' := hperm.subset ((List.mergeSort_perm l _).subset ha)
  exact List.inj_on_of_nodup_map hdays ha hb (le_antisymm hab hba)

/-- An account that is opened, closed, opened once more and closed once more, and then used; written
in another order. -/
def reopening : List Directive := [use, reopen, close, opening, closeAgain]
where
  opening : Directive := (Directive.Body.opening "Assets:Cash" ["USD"] none).on 1
  close : Directive := (Directive.Body.closing "Assets:Cash").on 2
  reopen : Directive := (Directive.Body.opening "Assets:Cash" ["EUR"] none).on 3
  closeAgain : Directive := (Directive.Body.closing "Assets:Cash").on 4
  use : Directive := (Directive.Body.document "Assets:Cash" "receipt.pdf").on 5

theorem byDate_reopening : Directive.byDate reopening =
    [reopening.opening, reopening.close, reopening.reopen, reopening.closeAgain, reopening.use] :=
  Directive.byDate_of_perm (by decide) (by decide +kernel)

/-- The account is known as it was opened and closed first when it comes to its use, which is found
to be after it closed. -/
theorem accounts_by_date_reopening :
    ∃ s life violations,
      Visits {} reopening
        [reopening.opening, reopening.close, reopening.reopen, reopening.closeAgain]
        reopening.use s ∧
      s.accounts["Assets:Cash"]? = some life ∧
      life = { opened := reopening.opening.date, closed := some reopening.close.date,
               currencies := ["USD"] } ∧
      life.By reopening.use.date ∧
      validate {} reopening = .exact violations ∧
      violations.map (·.problem.code) = ["E1002", "E1003", "E1003"] ∧
      ∀ v ∈ violations, ∀ account used opened,
        v.problem ≠ .usedBeforeOpening account used opened := by
  obtain ⟨hvisits, -, hreported⟩ := accounts_by_date {} reopening
  obtain ⟨s, reported, hs⟩ : ∃ s reported, (run {} [reopening.opening, reopening.close,
      reopening.reopen, reopening.closeAgain]).value? = some (s, reported) := ⟨_, _, rfl⟩
  have hvisit : Visits {} reopening
      [reopening.opening, reopening.close, reopening.reopen, reopening.closeAgain]
      reopening.use s := ⟨by rw [byDate_reopening]; exact List.prefix_refl _, reported, hs⟩
  obtain ⟨violations, hviolations, hcodes⟩ : ∃ violations,
      validate {} reopening = .exact violations ∧
        violations.map (·.problem.code) = ["E1002", "E1003", "E1003"] := by
    rw [validate_eq_run, byDate_reopening]
    decide +kernel
  have hlife : s.accounts["Assets:Cash"]? = some {
      opened := reopening.opening.date, closed := some reopening.close.date,
      currencies := ["USD"] } := by
    rw [accounts_run (Checked.gives_false.2 hs)]
    decide +kernel
  exact ⟨s, _, violations, hvisit, hlife, rfl, (hvisits _ _ _ hvisit).1 _ _ hlife, hviolations,
    hcodes, hreported violations (by rw [hviolations]; rfl)⟩

end DoubleEntry
