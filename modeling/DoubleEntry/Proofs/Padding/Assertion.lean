import DoubleEntry.Proofs.Order
import DoubleEntry.Proofs.Padding.Run
import DoubleEntry.Proofs.Sample
import DoubleEntry.Proofs.Subtree
import DoubleEntry.Proofs.Validation

/-!
# Pads make their assertions hold

Padding makes an assertion hold in the order in which it goes through the ledger. Validation goes
through the merged ledger, where all padding transactions stand on the days of their pads: some that
are made later come before the assertion then, and some that are made before it may come after it.
None of those moves anything in the account of the assertion, in its currency:

* `IsFirstUse.posted_eq_zero_of_le`: those that come after it are for pads of its own day, and the
  pad of its account is older.
* `posted_eq_zero_of_lt`: those that come before it are for pads of earlier days, and on its account
  that is the one that its currency has used.

So validation finds what padding has left (`Setting.posted_before`), and that is what is asserted
(`held_of_step`).
-/

namespace DoubleEntry

/-- The accounts in which a directive moves units, or asks padding to. -/
def Directive.touched (d : Directive) : List Account :=
  match d.body with
  | .transaction t => t.postings.map (·.account)
  | .pad p => [p.account, p.source]
  | _ => []

theorem Directive.mem_touched {d : Directive} {p : Posting} (h : p ∈ d.postings) :
    p.account ∈ d.touched := by
  unfold postings transaction? at h
  unfold touched
  split at h
  · rename_i t hbody
    rw [hbody]
    exact List.mem_map_of_mem h
  · simp at h

namespace Padding

variable {strict : Bool} {s s' final : State} {d dp db : Directive} {b : Assertion} {pad : Active}
  {before between after : List Directive}

/-- An assertion uses a pad of its account first in its currency: between the two, there is no other
pad of the account and no other assertion on it in the currency. -/
structure IsFirstUse (dp db : Directive) (between : List Directive) (b : Assertion) : Prop where
  pad : ∃ p, dp.body = .pad p ∧ p.account = b.account
  assertion : db.body = .balance b
  date_lt : dp.date < db.date
  noPad : ∀ d ∈ between, ∀ p, d.body = .pad p → p.account ≠ b.account
  noAssertion : ∀ d ∈ between, ∀ b', d.body = .balance b' → b'.account = b.account →
    b'.amount.currency ≠ b.amount.currency

/-! ## The pad that the assertion meets -/

theorem Active.mem_used_after (pad : Active) (b : Assertion) :
    b.amount.currency ∈ (pad.after b).used := by
  unfold Active.after
  split
  · assumption
  · simp

theorem nextActive_of_ne {pad : Active} (hpad : ∀ p, d.body = .pad p → p.account ≠ b.account)
    (hassertion : ∀ b', d.body = .balance b' → b'.account = b.account →
      b'.amount.currency ≠ b.amount.currency)
    (hfresh : b.amount.currency ∉ pad.used) :
    ∃ pad', nextActive b.account (some pad) d = some pad' ∧ pad'.entry = pad.entry ∧
      b.amount.currency ∉ pad'.used := by
  unfold nextActive
  split
  · rename_i p hbody
    rw [if_neg (hpad p hbody)]
    exact ⟨pad, rfl, rfl, hfresh⟩
  · rename_i b' hbody
    split
    · rename_i haccount
      refine ⟨pad.after b', rfl, ?_⟩
      unfold Active.after
      split
      · exact ⟨rfl, hfresh⟩
      · exact ⟨rfl, by simp [hfresh, (hassertion b' hbody haccount).symm]⟩
    · exact ⟨pad, rfl, rfl, hfresh⟩
  · exact ⟨pad, rfl, rfl, hfresh⟩

theorem foldl_nextActive_of_ne {l : List Directive} {pad : Active}
    (hpad : ∀ d ∈ l, ∀ p, d.body = .pad p → p.account ≠ b.account)
    (hassertion : ∀ d ∈ l, ∀ b', d.body = .balance b' → b'.account = b.account →
      b'.amount.currency ≠ b.amount.currency)
    (hfresh : b.amount.currency ∉ pad.used) :
    ∃ pad', l.foldl (nextActive b.account) (some pad) = some pad' ∧ pad'.entry = pad.entry ∧
      b.amount.currency ∉ pad'.used := by
  induction l generalizing pad with
  | nil => exact ⟨pad, rfl, rfl, hfresh⟩
  | cons d l ih =>
    obtain ⟨hpad, hpad'⟩ := List.forall_mem_cons.1 hpad
    obtain ⟨hassertion, hassertion'⟩ := List.forall_mem_cons.1 hassertion
    obtain ⟨pad₁, hpad₁, hentry₁, hfresh₁⟩ := nextActive_of_ne hpad hassertion hfresh
    obtain ⟨pad₂, hpad₂, hentry₂, hfresh₂⟩ := ih hpad' hassertion' hfresh₁
    exact ⟨pad₂, by rw [List.foldl_cons, hpad₁, hpad₂], hentry₂.trans hentry₁, hfresh₂⟩

/-- The assertion meets the pad. -/
theorem IsFirstUse.padFor? (h : IsFirstUse dp db between b)
    (hrun : (run (before ++ dp :: between)).Gives strict s) :
    ∃ pad, s.padFor? b = some pad ∧ pad.entry.directive = dp := by
  obtain ⟨p, hbody, haccount⟩ := h.pad
  have hdp (active : Option Active) :
      nextActive b.account active dp = some ⟨⟨dp.date, dp.metadata, p⟩, []⟩ := by
    simp [nextActive, hbody, haccount]
  have hactive := active_foldlM hrun b.account
  rw [List.foldl_append, List.foldl_cons, hdp] at hactive
  have hnew : b.amount.currency ∉ (⟨⟨dp.date, dp.metadata, p⟩, []⟩ : Active).used :=
    List.not_mem_nil
  obtain ⟨pad, hpad, hentry, hfresh⟩ := foldl_nextActive_of_ne h.noPad h.noAssertion hnew
  refine ⟨pad, padFor?_eq_some.2 ⟨hactive.trans hpad, hfresh⟩, ?_⟩
  rw [hentry, DatedPad.directive, ← hbody]

/-! ## The assertion in padding -/

theorem effectiveTolerance_nonneg {t : Decimal}
    (htolerance : ∀ t, b.tolerance = some t → Decimal.zero ≤ t)
    (h : b.effectiveTolerance = .exact t) : 0 ≤ t.value := by
  obtain ht | ⟨-, hvalue⟩ := Assertion.effectiveTolerance_cases h
  · simpa using Decimal.le_iff.1 (htolerance t ht)
  · rw [hvalue]
    positivity

/-- What a padding transaction moves in one account. -/
theorem posted_transaction (p : DatedPad) (asserted difference : Amount) (account : Account)
    (c : Currency) (hsource : p.pad.source ≠ account) :
    posted (p.transaction asserted difference).postings (· == account) c =
      if p.pad.account = account then difference.inCurrency c else 0 := by
  simp [DatedPad.postings_transaction, Posting.moved, Posting.amount?, hsource]

/-- Once the assertion has met a pad, its account holds what it asserts, up to the tolerance. -/
theorem held_of_step (hd : s.holdings.Distinct) (hbody : d.body = .balance b)
    (hpad : s.padFor? b = some pad) (haccount : pad.entry.pad.account = b.account)
    (hsource : pad.entry.pad.source ≠ b.account)
    (htolerance : ∀ t, b.tolerance = some t → Decimal.zero ≤ t) (hstep : s.step d = .exact s') :
    ∃ tolerance, b.effectiveTolerance = .exact tolerance ∧
      |(s'.held b).value - b.amount.number.value| ≤ tolerance.value := by
  cases step_of_gives (Checked.gives_true.2 hstep) with
  | post _ hbalance => exact absurd hbody (hbalance b)
  | pad hbody' => rw [hbody] at hbody'; cases hbody'
  | pass hbody' hnone =>
    obtain rfl := Directive.Body.balance.inj (hbody.symm.trans hbody')
    rw [hpad] at hnone
    cases hnone
  | @cover b' pad' difference tolerance hbody' hpad' hdifference htol hle =>
    obtain rfl := Directive.Body.balance.inj (hbody.symm.trans hbody')
    refine ⟨tolerance, Checked.gives_true.1 htol, ?_⟩
    rw [Decimal.le_iff, Decimal.value_abs, Decimal.value_sub (Checked.gives_true.1 hdifference),
      abs_sub_comm] at hle
    exact hle
  | @fill b' pad' difference tolerance t h hbody' hpad' hdifference htol _ ht hh =>
    obtain rfl := Directive.Body.balance.inj (hbody.symm.trans hbody')
    obtain rfl := Option.some.inj (hpad.symm.trans hpad')
    refine ⟨tolerance, Checked.gives_true.1 htol, ?_⟩
    have htotal := (Holdings.addPostings_eq_exact hd (Checked.gives_true.1 hh)).2 (· == b.account)
      b.amount.currency
    rw [Holdings.total_singleton, Holdings.total_singleton, ht,
      posted_transaction _ _ _ _ _ hsource, if_pos haccount, Amount.inCurrency, if_pos rfl,
      Decimal.value_sub (Checked.gives_true.1 hdifference)] at htotal
    have hheld : ((h.inventory b.account).units b.amount.currency).value =
        b.amount.number.value := by
      rw [htotal, State.held]
      ring
    show |((h.inventory b.account).units b.amount.currency).value - _| ≤ _
    rw [hheld, sub_self, abs_zero]
    exact effectiveTolerance_nonneg htolerance (Checked.gives_true.1 htol)

/-! ## Padding transactions around the assertion -/

/-- The transactions made so far that come after the assertion do not count for it: their pads are
dated on its day, so they are for other accounts. -/
theorem IsFirstUse.posted_eq_zero_of_le (h : IsFirstUse dp db between b)
    (hrun : (run (before ++ dp :: between ++ [db])).Gives strict s)
    (hdate : ∀ d ∈ before, d.date ≤ dp.date)
    (hsource : ∀ d ∈ before ++ dp :: between ++ [db], ∀ p, d.body = .pad p → p.source ≠ b.account)
    {t : Directive} (ht : t ∈ s.transactions) (hle : db.date ≤ t.date) :
    posted t.postings (· == b.account) b.amount.currency = 0 := by
  obtain ⟨pad, asserted, difference, hmem, rfl⟩ := exists_pad_of_mem_transactions hrun ht
  rw [posted_transaction _ _ _ _ _ (hsource _ hmem pad.pad rfl)]
  refine if_neg fun haccount => ?_
  have hlate : dp.date < pad.directive.date := h.date_lt.trans_le hle
  simp only [List.mem_append, List.mem_cons, List.mem_nil_iff, or_false] at hmem
  rcases hmem with (hmem | hmem | hmem) | hmem
  · exact (hdate _ hmem).not_gt hlate
  · exact (congrArg Directive.date hmem).not_gt hlate
  · exact h.noPad _ hmem pad.pad rfl haccount
  · have hbody := h.assertion
    rw [← hmem] at hbody
    cases hbody

/-- The transactions made later that come before an assertion do not count for it, if the pad of its
account has been used in its currency: any other pad of the account is dated later. -/
theorem posted_eq_zero_of_lt {seen after later : List Directive} {final : State} {day : Date}
    (hrun : (run seen).Gives strict s) (hafter : (after.foldlM State.step s).Gives strict final)
    (hlater : final.transactions = s.transactions ++ later)
    (hused : ∀ pad, s.active[b.account]? = some pad → b.amount.currency ∈ pad.used)
    (hdate : ∀ d ∈ after, day ≤ d.date)
    (hsource : ∀ d ∈ seen ++ after, ∀ p, d.body = .pad p → p.source ≠ b.account)
    {t : Directive} (ht : t ∈ later) (hlt : t.date < day) :
    posted t.postings (· == b.account) b.amount.currency = 0 := by
  obtain ⟨made, rest, rfl⟩ := List.append_of_mem ht
  rw [← List.append_assoc] at hlater
  obtain ⟨u, d, v, s₁, s₂, b', pad, difference, rfl, hu, -, -, -, -, hpad, rfl⟩ :=
    exists_assertion_of_transactions hafter hlater
  obtain ⟨hmem, haccount⟩ := mem_of_padFor? (run_append hrun hu) hpad
  have hmem : pad.entry.directive ∈ seen ++ (u ++ d :: v) := by
    rw [← List.append_assoc]
    exact List.mem_append_left _ hmem
  rw [posted_transaction _ _ _ _ _ (hsource _ hmem pad.entry.pad rfl)]
  split
  · rename_i hself
    refine if_neg fun hcurrency => ?_
    obtain ⟨hactive, hfresh⟩ := padFor?_eq_some.1 hpad
    rw [← haccount, hself, active_foldlM hu] at hactive
    rcases foldl_nextActive hactive with ⟨hmem, -⟩ | ⟨pad₀, hpad₀, -, hsub⟩
    · exact (hdate _ (List.mem_append_left _ hmem)).not_gt hlt
    · exact hfresh (hcurrency ▸ hsub (hused pad₀ hpad₀))
  · rfl

/-- A sorted ledger around the pad and the assertion. The account is no source, and nothing moves
below it. -/
structure Setting (before between after : List Directive) (dp db : Directive) (b : Assertion) : Prop
    extends IsFirstUse dp db between b where
  sorted : Directive.IsSorted (before ++ dp :: between ++ db :: after)
  source_ne : ∀ d ∈ before ++ dp :: between ++ db :: after, ∀ p, d.body = .pad p →
    p.source ≠ b.account
  not_isBelow : ∀ d ∈ before ++ dp :: between ++ db :: after, ∀ a ∈ d.touched,
    ¬a.isBelow b.account

/-- In the merged ledger, the padding transactions before the assertion put into its account what
those made up to it have put there. -/
theorem Setting.posted_transactions (h : Setting before between after dp db b)
    (hrun : (run (before ++ dp :: between ++ [db])).Gives strict s)
    (hafter : (after.foldlM State.step s).Gives strict final)
    (hused : ∀ pad, s.active[b.account]? = some pad → b.amount.currency ∈ pad.used) :
    posted ((final.transactions.filter (·.rank < db.rank)).flatMap Directive.postings)
        (· == b.account) b.amount.currency =
      posted (s.transactions.flatMap Directive.postings) (· == b.account) b.amount.currency := by
  have hsource := h.source_ne
  rw [List.append_cons] at hsource
  obtain ⟨later, hlater⟩ := transactions_prefix hafter
  have hrank : ∀ t ∈ final.transactions, t.rank < db.rank ↔ t.date < db.date := by
    intro t ht
    obtain ⟨pad, asserted, difference, -, rfl⟩ :=
      exists_pad_of_mem_transactions (run_append hrun hafter) ht
    exact Directive.transaction_rank_lt_iff rfl h.assertion
  rw [← hlater] at hrank
  have hsofar : ∀ t ∈ s.transactions, ¬decide (t.rank < db.rank) →
      posted t.postings (· == b.account) b.amount.currency = 0 := by
    intro t ht hlt
    rw [decide_eq_true_eq, hrank t (List.mem_append_left _ ht), not_lt] at hlt
    have hsorted := h.sorted
    rw [List.append_assoc, List.cons_append] at hsorted
    exact h.posted_eq_zero_of_le hrun hsorted.date_le.1
      (fun d hd => hsource d (List.mem_append_left after hd)) ht hlt
  have hlate : ∀ t ∈ later.filter (·.rank < db.rank),
      posted t.postings (· == b.account) b.amount.currency = 0 := by
    intro t ht
    obtain ⟨ht, hlt⟩ := List.mem_filter.1 ht
    rw [decide_eq_true_eq, hrank t (List.mem_append_right _ ht)] at hlt
    exact posted_eq_zero_of_lt hrun hafter hlater.symm hused h.sorted.date_le.2 hsource ht hlt
  rw [← hlater, List.filter_append, List.flatMap_append, posted_append, posted_filter hsofar,
    posted_flatMap_eq_zero hlate, add_zero]

/-- In the merged ledger, nothing moves below the account of the assertion either. -/
theorem Setting.posted_isBelow (h : Setting before between after dp db b)
    (hfinal : (run (before ++ dp :: between ++ db :: after)).Gives strict final) :
    posted ((before ++ dp :: between ++ final.transactions.filter (·.rank < db.rank)).flatMap
      Directive.postings) (Account.isBelow · b.account) b.amount.currency = 0 := by
  refine posted_eq_zero fun p hp => ?_
  obtain ⟨d, hd, hp⟩ := List.mem_flatMap.1 hp
  have htouched := Directive.mem_touched hp
  rcases List.mem_append.1 hd with hd | hd
  · exact h.not_isBelow d (List.mem_append_left _ hd) _ htouched
  · obtain ⟨pad, asserted, difference, hmem, rfl⟩ :=
      exists_pad_of_mem_transactions hfinal (List.mem_filter.1 hd).1
    exact h.not_isBelow _ hmem _ htouched

/-- What stands before the assertion in the merged ledger leaves in its account, and below it, what
padding has left there. -/
theorem Setting.posted_before (h : Setting before between after dp db b)
    (hrun : run (before ++ dp :: between ++ [db]) = .exact s)
    (hafter : after.foldlM State.step s = .exact final)
    (hused : ∀ pad, s.active[b.account]? = some pad → b.amount.currency ∈ pad.used) :
    posted ((before ++ dp :: between ++ final.transactions.filter (·.rank < db.rank)).flatMap
      Directive.postings) (Account.isWithin · b.account) b.amount.currency = (s.held b).value := by
  rw [← Checked.gives_true] at hafter
  have hrun' := Checked.gives_true.2 hrun
  have hfinal := run_append hrun' hafter
  rw [← List.append_cons] at hfinal
  have hdb : db.postings = [] := by simp [Directive.postings_eq_nil, h.assertion]
  rw [posted_isWithin, h.posted_isBelow hfinal, add_zero, value_held hrun, List.flatMap_append,
    posted_append, h.posted_transactions hrun' hafter hused]
  simp [hdb, add_assoc]

/-- What stands before the assertion in the merged ledger leaves what is asserted, up to the
tolerance. -/
theorem Setting.exists_tolerance (h : Setting before between after dp db b)
    (htolerance : ∀ t, b.tolerance = some t → Decimal.zero ≤ t)
    (hrun : run (before ++ dp :: between ++ db :: after) = .exact final) :
    ∃ tolerance, b.effectiveTolerance = .exact tolerance ∧
      |posted ((before ++ dp :: between ++ final.transactions.filter (·.rank < db.rank)).flatMap
          Directive.postings) (Account.isWithin · b.account) b.amount.currency -
        b.amount.number.value| ≤ tolerance.value := by
  rw [run, List.foldlM_append, Checked.bind_eq_exact] at hrun
  obtain ⟨s, hs, hrun⟩ := hrun
  rw [List.foldlM_cons, Checked.bind_eq_exact] at hrun
  obtain ⟨s', hdb, hafter⟩ := hrun
  have hs' : run (before ++ dp :: between ++ [db]) = .exact s' := by
    rw [run, List.foldlM_append, hs, Checked.exact_bind, List.foldlM_cons, hdb]
    rfl
  have hrun := Checked.gives_true.2 hs
  obtain ⟨pad, hpad, -⟩ := h.padFor? hrun
  obtain ⟨hmem, haccount⟩ := mem_of_padFor? hrun hpad
  have hused : ∀ pad', s'.active[b.account]? = some pad' → b.amount.currency ∈ pad'.used := by
    intro pad' hpad'
    rw [(step_of_gives (Checked.gives_true.2 hdb)).active, nextActive_of_balance h.assertion,
      if_pos rfl, (padFor?_eq_some.1 hpad).1] at hpad'
    obtain rfl := Option.some.inj hpad'
    exact pad.mem_used_after b
  rw [h.posted_before hs' hafter hused]
  exact held_of_step (movedBy_run hrun).distinct h.assertion hpad haccount
    (h.source_ne _ (List.mem_append_left _ hmem) _ rfl) htolerance hdb

/-- The assertion is not among what stands before it. -/
theorem Setting.not_mem_before (h : Setting before between after dp db b) (made : List Directive) :
    db ∉ before ++ dp :: between ++ made.filter (·.rank < db.rank) := by
  intro hmem
  have hsorted := h.sorted
  rw [List.append_assoc, List.cons_append] at hsorted
  simp only [List.mem_append, List.mem_cons] at hmem
  rcases hmem with (hmem | hmem | hmem) | hmem
  · exact (hsorted.date_le.1 db hmem).not_gt h.date_lt
  · exact (congrArg Directive.date hmem).not_gt h.date_lt
  · exact h.noAssertion db hmem b h.assertion rfl rfl
  · simp at hmem

end Padding

/-- The merged ledger is the ledger with the padding transactions sorted into it. -/
theorem mergePadding_of_isSorted {strict : Bool} {l merged : List Directive}
    {unused : List DatedPad} (hsorted : Directive.IsSorted l)
    (h : (mergePadding l).Gives strict (merged, unused)) :
    ∃ s, (Padding.run l).Gives strict s ∧ merged = Directive.sort (l ++ s.transactions) := by
  obtain ⟨s, hrun, hmerged⟩ := mergePadding_gives h
  rw [Directive.sort_of_isSorted hsorted] at hrun
  refine ⟨s, hrun, hmerged.trans ?_⟩
  split
  · rename_i hempty
    rw [List.isEmpty_iff.1 hempty, List.append_nil, Directive.sort_of_isSorted hsorted]
  · rfl

/-- **Pads make their assertions hold.** Let `dp` be the last pad of an account before the assertion
`db`, on an earlier day, and `db` the first assertion on the account in its currency after it. If no
pad takes from the account, nothing moves below it and no operation rounds, validation of the merged
ledger reports no failure of `db`. -/
theorem no_assertionFailed_of_isFirstUse {l before between after merged : List Directive}
    {dp db : Directive} {b : Assertion} {unused : List DatedPad} {rules : Validation.Rules}
    {violations : List Violation}
    (hsort : Directive.sort l = before ++ dp :: between ++ db :: after)
    (huse : Padding.IsFirstUse dp db between b)
    (hsource : ∀ d ∈ l, ∀ p, d.body = .pad p → p.source ≠ b.account)
    (hbelow : ∀ d ∈ l, ∀ a ∈ d.touched, ¬a.isBelow b.account)
    (htolerance : ∀ t, b.tolerance = some t → Decimal.zero ≤ t)
    (hmerged : mergePadding (Directive.sort l) = .exact (merged, unused))
    (hviolations : validate rules merged = .exact violations) :
    ∃ before' after' earlier reported later,
      merged = before' ++ db :: after' ∧ db ∉ before' ∧
      validate rules before' = .exact earlier ∧
      validate rules (before' ++ [db]) = .exact (earlier ++ reported) ∧
      violations = earlier ++ reported ++ later ∧
      ∀ v ∈ reported, v.problem.code ≠ "E2001" := by
  have hmem : ∀ d, d ∈ before ++ dp :: between ++ db :: after ↔ d ∈ l := by
    intro d
    rw [← hsort]
    exact (Directive.sort_perm l).mem_iff
  have hsorted := Directive.isSorted_sort l
  rw [hsort] at hsorted hmerged
  have hsetting : Padding.Setting before between after dp db b :=
    ⟨huse, hsorted, fun d hd => hsource d ((hmem d).1 hd), fun d hd => hbelow d ((hmem d).1 hd)⟩
  obtain ⟨final, hrun, rfl⟩ := mergePadding_of_isSorted hsorted (Checked.gives_true.2 hmerged)
  have hextra : ∀ t ∈ final.transactions, t.rank ≠ db.rank := by
    intro t ht
    obtain ⟨pad, asserted, difference, -, rfl⟩ := Padding.exists_pad_of_mem_transactions hrun ht
    exact Directive.transaction_rank_ne rfl huse.assertion
  obtain ⟨before', after', hmerge, hperm⟩ := Directive.exists_sort_append_eq hsorted hextra
  have hmergedSorted := Directive.isSorted_sort
    (before ++ dp :: between ++ db :: after ++ final.transactions)
  rw [hmerge] at hmergedSorted hviolations
  obtain ⟨s, earlier, problems, later, hs, hproblems, hearlier, hupto, hall⟩ :=
    validate_split hmergedSorted hviolations
  refine ⟨before', after', earlier, _, later, hmerge, fun hdb => ?_, hearlier, hupto, hall, ?_⟩
  · exact hsetting.not_mem_before final.transactions (hperm.mem_iff.1 hdb)
  · intro v hv hcode
    obtain ⟨problem, hproblem, rfl⟩ := List.mem_map.1 hv
    obtain ⟨held, tolerance, hheld, htol, hlt⟩ :=
      Validation.exists_of_assertionFailed huse.assertion hproblems hproblem hcode
    obtain ⟨tolerance', htol', hle⟩ :=
      hsetting.exists_tolerance htolerance (Checked.gives_true.1 hrun)
    obtain rfl := Checked.exact.inj (htol.symm.trans htol')
    rw [← posted_perm (hperm.flatMap_right _), ← Validation.value_subtreeUnits hs hheld] at hle
    exact hle.not_gt hlt

/-- Cash is spent between a pad and its assertion. -/
def topUp : List Directive := [opening, pad, purchase, assertion]
where
  opening : Directive := (Directive.Body.opening "Assets:Cash" [] none).on 0
  pad : Directive := (Directive.Body.pad ⟨"Assets:Cash", "Equity:Opening"⟩).on 1
  purchase : Directive :=
    (Directive.Body.transaction {
      postings := [
        .plain "Assets:Cash" (Decimal.ofNat 30).neg "USD",
        .plain "Expenses:Food" (.ofNat 30) "USD"] }).on 2
  assertion : Directive := (Directive.Body.balance asserted).on 3
  asserted : Assertion := ⟨"Assets:Cash", ⟨.ofNat 100, "USD"⟩, none⟩
  transfer : Directive :=
    DatedPad.transaction ⟨.afterNewYear 1, {}, ⟨"Assets:Cash", "Equity:Opening"⟩⟩
      ⟨.ofNat 100, "USD"⟩ ⟨.ofNat 130, "USD"⟩

theorem no_assertionFailed_topUp :
    ∃ merged unused violations before' after' earlier reported later,
      mergePadding (Directive.sort topUp) = .exact (merged, unused) ∧
      validate {} merged = .exact violations ∧
      merged = before' ++ topUp.assertion :: after' ∧ topUp.assertion ∉ before' ∧
      validate {} before' = .exact earlier ∧
      validate {} (before' ++ [topUp.assertion]) = .exact (earlier ++ reported) ∧
      violations = earlier ++ reported ++ later ∧
      ∀ v ∈ reported, v.problem.code ≠ "E2001" := by
  have hsort : Directive.sort topUp =
      [topUp.opening] ++ topUp.pad :: [topUp.purchase] ++ topUp.assertion :: [] :=
    Directive.sort_of_isSorted (by decide +kernel)
  have hsort' : Directive.sort (topUp ++ [topUp.transfer]) =
      [topUp.opening, topUp.pad, topUp.transfer, topUp.purchase, topUp.assertion] :=
    Directive.sort_eq_of_perm (by decide +kernel) (by decide +kernel)
  obtain ⟨s, hs, htransactions⟩ :
      ∃ s, Padding.run topUp = .exact s ∧ s.transactions = [topUp.transfer] := by
    decide +kernel
  have hmerged : mergePadding (Directive.sort topUp) =
      .exact ([topUp.opening, topUp.pad, topUp.transfer, topUp.purchase, topUp.assertion],
        s.allUnused) := by
    have hsort : Directive.sort topUp = topUp := hsort
    simp [mergePadding, padding, hsort, hs, htransactions, hsort']
  obtain ⟨violations, hviolations⟩ : ∃ violations, validate {} [topUp.opening, topUp.pad,
      topUp.transfer, topUp.purchase, topUp.assertion] = .exact violations := by
    rw [validate_of_isSorted (by decide +kernel)]
    decide +kernel
  have huse : Padding.IsFirstUse topUp.pad topUp.assertion [topUp.purchase] topUp.asserted := {
    pad := ⟨_, rfl, rfl⟩
    assertion := rfl
    date_lt := by decide
    noPad := by simp [topUp.purchase, Directive.Body.on]
    noAssertion := by simp [topUp.purchase, Directive.Body.on] }
  have hsource : ∀ d ∈ topUp, ∀ p, d.body = .pad p → p.source ≠ topUp.asserted.account := by
    simp [topUp, topUp.opening, topUp.pad, topUp.purchase, topUp.assertion, topUp.asserted,
      Directive.Body.on]
  obtain ⟨before', after', earlier, reported, later, h⟩ :=
    no_assertionFailed_of_isFirstUse hsort huse hsource (by decide +kernel)
      (by simp [topUp.asserted]) hmerged hviolations
  exact ⟨_, _, violations, before', after', earlier, reported, later, hmerged, hviolations, h⟩

end DoubleEntry
