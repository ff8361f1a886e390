import DoubleEntry.Proofs.Booking.Residual
import DoubleEntry.Proofs.Decimal.Magnitude
import DoubleEntry.Proofs.IterationOrder
import DoubleEntry.Proofs.Realized
import DoubleEntry.Proofs.Tolerance

/-!
# Ledgers that cannot overflow

Adding up what postings move overflows only with numbers that no ledger has. Where every number of a
posting is below a thousand million, and there are at most as many postings, products have at most
18 digits before the point and sums at most 28, and so many fit.

* `Posting.weight?_within`, `Posting.held?_within`: what one posting weighs, and what it adds to its
  account.
* `residualOf_within`: residuals. `Holdings.Within`: what accounts hold after so many postings;
  `Holdings.Within.addPostings` and `Holdings.Within.sum_numbersWithin`.
* `Moderate`: ledgers of such a size.
* `Moderate.no_overflow`: nothing that adds up their postings overflows.
-/

namespace DoubleEntry

open Decimal (limit AtMost)

variable {E : ArithmeticError → Prop} {M n : Nat} {p : Posting} {ps : List Posting}

/-! ## One posting -/

/-- The numbers of the posting: of its units, its cost and its price. -/
def Posting.numbers (p : Posting) : List Decimal :=
  (p.units.bind Units.number?).toList ++ (p.cost.bind (·.perUnit)).toList ++
    (p.cost.bind (·.total)).toList ++ (p.price.map (·.amount.number)).toList

/-- What a lot costs is at most a product of two numbers and a third. -/
theorem Cost.totalFor?_within {cost : Cost} {units : Amount} (hM : M * M + M < limit)
    (hunits : units.number.AtMost M) (hper : ∀ n ∈ cost.perUnit, n.AtMost M)
    (htotal : ∀ n ∈ cost.total, n.AtMost M) :
    (cost.totalFor? units).Ends (fun o => ∀ a ∈ o, a.number.AtMost (M * M + M)) E := by
  unfold totalFor?
  split
  · exact .exact (by simp)
  · exact .exact (by simp)
  · next currency perUnit _ hperUnit =>
    have hadded : (cost.total.getD .zero).AtMost M := by
      cases ht : cost.total with
      | none => exact Decimal.atMost_zero M
      | some n => exact htotal n ht
    have hproduct : (units.number.mul perUnit).Ends (AtMost (M * M)) E :=
      Decimal.mul_within hunits (hper perUnit hperUnit) (Nat.lt_of_add_right_lt hM)
    refine hproduct.bind fun product hp => ?_
    refine (Decimal.add_within hp hadded hM).bind fun number hn => .exact ?_
    rintro _ ⟨⟩
    exact hn
  · next currency total _ _ ht =>
    refine .exact ?_
    rintro _ ⟨⟩
    have hle : M ≤ M * M + M := Nat.le_add_left M (M * M)
    show AtMost _ (if units.number.negative then total.neg else total)
    split
    · exact (htotal total ht).neg.mono hle
    · exact (htotal total ht).mono hle

theorem Price.convert_within {price : Price} {units : Amount} (hM : M * M + M < limit)
    (hunits : units.number.AtMost M) (hprice : price.amount.number.AtMost M) :
    (price.convert units).Ends (fun a => a.number.AtMost (M * M + M)) E := by
  cases price with
  | unit a =>
    have hproduct : (units.number.mul a.number).Ends (AtMost (M * M)) E :=
      Decimal.mul_within hunits hprice (Nat.lt_of_add_right_lt hM)
    exact hproduct.bind fun product hp => .exact (hp.mono (Nat.le_add_right _ _))
  | total a =>
    refine .exact ?_
    have hle : M ≤ M * M + M := Nat.le_add_left M (M * M)
    split
    · exact hprice.neg.mono hle
    · exact hprice.mono hle

namespace Posting

/-- All numbers of the posting are at most `M`. -/
def Within (M : Nat) (p : Posting) : Prop := ∀ n ∈ p.numbers, n.AtMost M

theorem Within.units (h : p.Within M) {units : Amount} (hunits : p.amount? = some units) :
    units.number.AtMost M := by
  refine h _ ?_
  unfold amount? at hunits
  split at hunits
  · next a ha =>
    obtain rfl := Option.some.inj hunits
    simp [numbers, ha, Units.number?]
  · cases hunits

theorem Within.totalFor? (h : p.Within M) (hM : M * M + M < limit) {units : Amount}
    (hunits : p.amount? = some units) :
    (p.cost.elim (pure none) fun cost => cost.totalFor? units).Ends
      (fun o => ∀ a ∈ o, a.number.AtMost (M * M + M)) E := by
  cases hcost : p.cost with
  | none => exact .exact (by simp)
  | some cost =>
    refine Cost.totalFor?_within hM (h.units hunits) (fun n hn => h n ?_) (fun n hn => h n ?_)
    · simp [numbers, hcost, Option.mem_def.1 hn]
    · simp [numbers, hcost, Option.mem_def.1 hn]

/-- A posting weighs at most a product of two of its numbers and a third. -/
theorem weight?_within (h : p.Within M) (hM : M * M + M < limit) :
    p.weight?.Ends (fun o => ∀ a ∈ o, a.number.AtMost (M * M + M)) E := by
  unfold weight?
  split
  · exact .exact (by simp)
  · next units hunits =>
    refine (h.totalFor? hM hunits).bind fun total htotal => ?_
    split
    · exact .exact htotal
    · split
      · next price hprice =>
        have hwithin : price.amount.number.AtMost M := h _ (by simp [numbers, hprice])
        refine (Price.convert_within hM (h.units hunits) hwithin).bind fun a ha => .exact ?_
        rintro _ ⟨⟩
        exact ha
      · refine .exact ?_
        rintro _ ⟨⟩
        exact (h.units hunits).mono (Nat.le_add_left M (M * M))

theorem held?_within (h : p.Within M) (hM : M * M + M < limit) :
    p.held?.Ends (fun o => ∀ a ∈ o, a.number.AtMost (M * M + M)) E := by
  unfold held?
  split
  · exact .exact (by simp)
  · next units hunits =>
    refine (h.totalFor? hM hunits).bind fun total htotal => .exact ?_
    rintro _ ⟨⟩
    cases total with
    | none => exact (h.units hunits).mono (Nat.le_add_left M (M * M))
    | some a => exact htotal a rfl

end Posting

/-! ## Residuals -/

/-- No number is larger than the bound. -/
def Totals.Within (n : Nat) (t : Totals) : Prop := ∀ c, (t.number c).AtMost n

theorem Totals.Within.mono {t : Totals} (h : t.Within n) {k : Nat} (hk : n ≤ k) : t.Within k :=
  fun c => (h c).mono hk

/-- A total grows by no more than what is added. -/
theorem Totals.Within.add {t : Totals} {a : Amount} (h : t.Within n) (ha : a.number.AtMost M)
    (hlt : n + M < limit) : (t.add a).Ends (Within (n + M)) E := by
  refine (Decimal.add_within (h a.currency) ha hlt).bind fun sum hsum => .exact fun c => ?_
  rw [Totals.number_insert]
  split
  · exact hsum
  · exact (h c).mono (Nat.le_add_right n M)

/-- No residual is larger than what so many postings can weigh. -/
theorem residualOf_within (hps : ∀ p ∈ ps, p.Within M) (hlt : ps.length * (M * M + M) < limit) :
    (residualOf ps).Ends (Totals.Within (ps.length * (M * M + M))) E := by
  have hcount : 0 + (ps.map fun _ => M * M + M).sum = ps.length * (M * M + M) := by simp
  rw [← hcount]
  refine Checked.Ends.foldlM_counted Totals.Within (limit - 1) (fun p hp n t hn ht => ?_)
    (fun c => ?_) (by omega)
  · have hlt : n + (M * M + M) < limit := Nat.lt_of_le_pred (by decide) hn
    refine (Posting.weight?_within (hps p hp) (Nat.lt_of_add_left_lt hlt)).bind
      fun weight hweight => ?_
    cases weight with
    | none => exact .exact (ht.mono (Nat.le_add_right _ _))
    | some a => exact ht.add (hweight a rfl) hlt
  · exact Decimal.atMost_zero 0

/-! ## Holdings -/

theorem Inventory.add_within {inv : Inventory} {a : Amount} (hd : inv.Distinct)
    (hinv : ∀ c, (inv.units c).AtMost n) (ha : a.number.AtMost M) (hlt : n + M < limit) :
    (inv.add a).Ends (fun inv => inv.Distinct ∧ ∀ c, (inv.units c).AtMost (n + M)) E := by
  rw [add_eq_put]
  refine (Decimal.add_within (hinv a.currency) ha hlt).bind fun sum hsum => .exact ?_
  refine ⟨distinct_put hd, fun c => ?_⟩
  unfold AtMost Decimal.size at hinv hsum ⊢
  rw [units_put hd]
  split
  · exact hsum
  · exact (hinv c).trans (by exact_mod_cast Nat.le_add_right n M)

namespace Holdings

variable {h : Holdings}

/-- What accounts can hold after `n` postings of units up to `M`. -/
structure Within (M n : Nat) (h : Holdings) : Prop where
  distinct : h.Distinct
  accounts : h.size ≤ n
  units : ∀ account c, ((h.inventory account).units c).AtMost (n * M)

/-- Nothing is held at first. -/
theorem within_empty (M : Nat) : Within M 0 {} where
  distinct := distinct_empty
  accounts := le_rfl
  units _ _ := Decimal.atMost_zero _

theorem Within.mono (hh : h.Within M n) {k : Nat} (hk : n ≤ k) : h.Within M k where
  distinct := hh.distinct
  accounts := hh.accounts.trans hk
  units account c := (hh.units account c).mono (Nat.mul_le_mul_right M hk)

theorem Within.add (hh : h.Within M n) {account : Account} {a : Amount}
    (ha : a.number.AtMost M) (hlt : (n + 1) * M < limit) :
    (h.add account a).Ends (Within M (n + 1)) E := by
  rw [Nat.succ_mul] at hlt
  refine (Inventory.add_within (hh.distinct account) (hh.units account) ha hlt).bind ?_
  rintro inv ⟨hdistinct, hunits⟩
  refine .exact ⟨hh.distinct.insert hdistinct, ?_, fun b c => ?_⟩
  · exact Std.TreeMap.size_insert_le.trans (Nat.succ_le_succ hh.accounts)
  · rw [inventory_insert, Nat.succ_mul]
    split
    · exact hunits c
    · exact (hh.units b c).mono (Nat.le_add_right _ _)

/-- Every posting puts into one account at most its units. -/
theorem Within.addPostings (hh : h.Within M n) (hps : ∀ p ∈ ps, p.Within M)
    (hlt : (n + ps.length) * M < limit) :
    (h.addPostings ps).Ends (Within M (n + ps.length)) E := by
  have hcount : (ps.map fun _ => 1).sum = ps.length := by simp
  rw [← hcount] at hlt ⊢
  refine Checked.Ends.foldlM_counted (Within M) _ (fun p hp k g hk hg => ?_) hh le_rfl
  cases hamount : p.amount? with
  | none => exact .exact (hg.mono (Nat.le_add_right _ _))
  | some a =>
    exact hg.add ((hps p hp).units hamount) ((Nat.mul_le_mul_right M hk).trans_lt hlt)

/-- The units of a subtree are a sum over at most as many accounts as there were postings, in
whichever order it takes them. -/
theorem Within.sum_numbersWithin (hh : h.Within M n) (hlt : n * (n * M) < limit)
    {order : List (Account × Inventory)} (horder : order.Perm h.toList) (account : Account)
    (c : Currency) :
    (Decimal.sum (numbersWithin order account c)).Ends (AtMost (n * (n * M))) E := by
  have hlength : (numbersWithin order account c).length ≤ n := by
    rw [numbersWithin, List.length_map]
    refine (List.length_filter_le _ _).trans ?_
    rw [horder.length_eq, Std.TreeMap.length_toList]
    exact hh.accounts
  have hle := Nat.mul_le_mul_right (n * M) hlength
  refine (Decimal.sum_within (fun a ha => ?_) (hle.trans_lt hlt)).mono
    (fun a ha => ha.mono hle) fun _ => id
  obtain ⟨e, he, rfl⟩ := List.mem_map.1 ha
  have hunits := hh.units e.1 c
  rwa [inventory_of_mem (horder.subset (List.mem_filter.1 he).1)] at hunits

end Holdings

/-! ## Realized entries -/

/-- Entries can be realized if all that they hold together fits a decimal. -/
theorem Holdings.exists_realized_of_within {entries : List Directive}
    (hps : ∀ p ∈ entries.flatMap Directive.postings, p.Within M)
    (hlt : (entries.flatMap Directive.postings).length * (M * M + M) < limit) :
    ∃ h, (realized entries).value? = some h := by
  have hheld (p) (hp : p ∈ entries.flatMap Directive.postings) :
      ∃ held, p.held?.value? = some held ∧ ∀ a ∈ held, a.number.AtMost (M * M + M) := by
    refine (Posting.held?_within (hps p hp) ?_).exists_value?
    exact (Nat.le_mul_of_pos_left _ (List.length_pos_of_mem hp)).trans_lt hlt
  refine (exists_realized_iff_sums entries).2 ⟨fun p hp => ?_, fun account c => ?_⟩
  · obtain ⟨held, hvalue, -⟩ := hheld p hp
    exact ⟨held, hvalue⟩
  · let numbers := numbersIn c (holdingsOf account (entries.flatMap Directive.postings))
    have hlength : numbers.length ≤ (entries.flatMap Directive.postings).length := by
      refine (List.length_map _).trans_le ((List.length_filter_le _ _).trans ?_)
      exact (List.length_filterMap_le _ _).trans (List.length_filter_le _ _)
    have hnumbers : ∀ a ∈ numbers, a.AtMost (M * M + M) := by
      intro n hn
      obtain ⟨a, ha, rfl⟩ := List.mem_map.1 hn
      obtain ⟨p, hp, hholding⟩ := List.mem_filterMap.1 (List.mem_filter.1 ha).1
      obtain ⟨held, hvalue, hheld⟩ := hheld p (List.mem_filter.1 hp).1
      exact hheld a ((Posting.holding?_eq hvalue).symm.trans hholding)
    have hle := Nat.mul_le_mul_right (M * M + M) hlength
    obtain ⟨t, ht, -⟩ := (Decimal.sum_within hnumbers (hle.trans_lt hlt)).exists_value?
    exact ⟨t, ht⟩

/-! ## Validation -/

theorem Decimal.sub_ends (a b : Decimal) :
    (a.sub b).Ends (fun _ => True) (· = .subtractionOverflow) := by
  unfold sub
  split
  · exact .exact trivial
  split
  · exact .exact trivial
  generalize addNonzero? a b.neg = result
  cases result with
  | none => exact .error rfl
  | some c =>
    simp only [outcome]
    split
    · exact .exact trivial
    · exact .rounded trivial

namespace Validation

variable {rules : Rules} {s : State} {d : Directive} {ds : List Directive}

/-- The failures of validating some directives that have nothing to do with adding up postings. -/
inductive OtherFailure (M : Nat) (ds : List Directive) : ArithmeticError → Prop
  /-- An amount has too many places to imply a tolerance. -/
  | noTolerance (scale : Nat) : OtherFailure M ds (.scaleTooLarge scale)
  /-- An assertion claims a larger number than any posting has, and what is held differs from it by
  too much. -/
  | largeAssertion {d : Directive} {b : Assertion} (hd : d ∈ ds) (hbody : d.body = .balance b)
    (hlarge : M < |b.amount.number.value|) : OtherFailure M ds .subtractionOverflow

/-- The accounts go on with what the postings of a directive put into them. -/
theorem next_within (hs : s.holdings.Within M n) (hd : ∀ p ∈ d.postings, p.Within M)
    (hlt : (n + d.postings.length) * M < limit) :
    (s.next d).Ends (fun s => s.holdings.Within M (n + d.postings.length)) E := by
  have hsame := hs.mono (Nat.le_add_right n d.postings.length)
  unfold State.next
  split
  · exact .exact (by rwa [holdings_opening])
  · exact .exact (by rwa [holdings_closing])
  · exact .exact hsame
  · next t hbody =>
    rw [← Directive.postings_of_transaction hbody]
    exact (hs.addPostings hd hlt).bind fun h hh => .exact hh
  · exact .exact hsame

/-- Looking for what a transaction leaves over fails only for want of a tolerance. -/
theorem residualProblems_ends {t : Transaction} (hps : ∀ p ∈ t.postings, p.Within M)
    (hlt : t.postings.length * (M * M + M) < limit) :
    (State.residualProblems t).Ends (fun _ => True) (OtherFailure M ds) := by
  have htolerances : t.tolerances.Ends (fun _ => True) (OtherFailure M ds) := by
    refine Checked.Ends.iff.2 ⟨fun _ _ => trivial, fun e he => ?_⟩
    obtain ⟨rfl, -⟩ := t.tolerances_eq_error_iff.1 he
    exact .noTolerance _
  exact htolerances.bind fun _ _ => (residualOf_within hps hlt).bind fun _ _ => .exact trivial

theorem heldProblems_ends {b : Assertion} (hs : s.holdings.Within M n)
    (hlt : n * (n * M) + M < limit) (hd : d ∈ ds) (hbody : d.body = .balance b) :
    (s.heldProblems b).Ends (fun _ => True) (OtherFailure M ds) := by
  have htolerance : b.effectiveTolerance.Ends (fun _ => True) (OtherFailure M ds) := by
    refine Checked.Ends.iff.2 ⟨fun _ _ => trivial, fun e he => ?_⟩
    obtain ⟨rfl, -⟩ := b.effectiveTolerance_eq_error_iff.1 he
    exact .noTolerance _
  have hheld := hs.sum_numbersWithin (E := OtherFailure M ds) (Nat.lt_of_add_right_lt hlt)
    (.refl _) b.account b.amount.currency
  refine Checked.Ends.bind hheld fun held hheld => htolerance.bind fun _ _ => ?_
  refine Checked.Ends.bind (P := fun _ => True) ?_ fun _ _ => .exact trivial
  by_cases hsmall : b.amount.number.AtMost M
  · exact (Decimal.sub_within hheld hsmall hlt).mono (fun _ _ => trivial) fun _ => id
  · refine (held.sub_ends b.amount.number).mono (fun _ => id) ?_
    rintro _ rfl
    exact .largeAssertion hd hbody (not_le.1 hsmall)

/-- Checking a directive fails in no way that has to do with adding up postings. -/
theorem problems_ends (hs : s.holdings.Within M n) (hheld : n * (n * M) + M < limit) (hd : d ∈ ds)
    (hps : ∀ p ∈ d.postings, p.Within M) (hlt : d.postings.length * (M * M + M) < limit) :
    (s.problems rules d).Ends (fun _ => True) (OtherFailure M ds) := by
  unfold State.problems
  split
  · exact .exact trivial
  · exact .exact trivial
  · next t hbody =>
    rw [Directive.postings_of_transaction hbody] at hps hlt
    unfold State.transactionProblems
    split
    · exact .exact trivial
    · exact (residualProblems_ends hps hlt).bind fun _ _ => .exact trivial
  · next b hbody =>
    unfold State.assertionProblems
    dsimp only
    split
    · exact (heldProblems_ends hs hheld hd hbody).bind fun _ _ => .exact trivial
    · exact .exact trivial
  · exact .exact trivial
  · exact .exact trivial
  · exact .exact trivial

/-- A run that validates moves the accounts as the directives do. -/
theorem foldlM_next_of_run {vs : List Violation} (h : (run rules ds).value? = some (s, vs)) :
    (ds.foldlM State.next {}).value? = some s := by
  refine Checked.foldlM_invariant
    (fun seen (now : State × List Violation) => (seen.foldlM State.next {}).value? = some now.1)
    rfl ?_ (Checked.gives_false.2 h)
  rintro seen ⟨s, vs⟩ d ⟨s', vs'⟩ hs hstep
  obtain ⟨hnext, -⟩ := next_of_step hstep
  rw [List.foldlM_append, Checked.value?_bind, hs]
  simpa using Checked.gives_false.1 hnext

/-- One directive after those before it. -/
theorem step_within {vs : List Violation} (hs : s.holdings.Within M n)
    (hheld : n * (n * M) + M < limit) (hd : d ∈ ds) (hps : ∀ p ∈ d.postings, p.Within M)
    (hresidual : d.postings.length * (M * M + M) < limit)
    (hlt : (n + d.postings.length) * M < limit) :
    (step rules (s, vs) d).Ends (fun now => now.1.holdings.Within M (n + d.postings.length))
      (OtherFailure M ds) :=
  (problems_ends hs hheld hd hps hresidual).bind fun _ _ =>
    (next_within hs hps hlt).bind fun _ hnext => .exact hnext

end Validation

/-! ## Ledgers -/

/-- Every number of a posting is below a thousand million, and there are at most as many
postings. -/
structure Moderate (entries : List Directive) : Prop where
  numbers : ∀ d ∈ entries, ∀ p ∈ d.postings, ∀ n ∈ p.numbers, |n.value| < 10 ^ 9
  count : (entries.flatMap Directive.postings).length ≤ 10 ^ 9

namespace Moderate

open Validation (State OtherFailure)

variable {entries before : List Directive} {rules : Validation.Rules}

theorem within (h : Moderate entries) {d : Directive} (hd : d ∈ entries) :
    ∀ p ∈ d.postings, p.Within (10 ^ 9) := by
  intro p hp n hn
  have hlt := (h.numbers d hd p hp n hn).le
  unfold AtMost Decimal.size
  push_cast
  exact hlt

/-- The postings of some of the directives, gone through in the order of their dates, are not more
than all there are. -/
theorem count_le (h : Moderate entries) (hbefore : before <+: Directive.byDate entries) :
    (before.map fun d => d.postings.length).sum ≤ 10 ^ 9 := by
  have hall : ((Directive.byDate entries).flatMap Directive.postings).length ≤ 10 ^ 9 := by
    rw [((Directive.byDate_perm entries).flatMap_right _).length_eq]
    exact h.count
  obtain ⟨after, hafter⟩ := hbefore
  rw [← hafter, List.flatMap_append, List.length_append, List.length_flatMap] at hall
  exact (Nat.le_add_right _ _).trans hall

theorem length_postings_le (h : Moderate entries) {d : Directive} (hd : d ∈ entries) :
    d.postings.length ≤ 10 ^ 9 := by
  refine le_trans ?_ h.count
  rw [List.length_flatMap]
  exact List.le_sum_of_mem (List.mem_map_of_mem hd)

/-- What one transaction weighs fits. -/
theorem residual_lt {k : Nat} (hk : k ≤ 10 ^ 9) : k * (10 ^ 9 * 10 ^ 9 + 10 ^ 9) < limit :=
  (Nat.mul_le_mul_right _ hk).trans_lt (by decide)

/-- What a subtree holds fits, and its difference from an asserted number. -/
theorem subtree_lt {k : Nat} (hk : k ≤ 10 ^ 9) : k * (k * 10 ^ 9) + 10 ^ 9 < limit := by
  have hle : k * (k * 10 ^ 9) ≤ 10 ^ 9 * (10 ^ 9 * 10 ^ 9) :=
    Nat.mul_le_mul hk (Nat.mul_le_mul_right _ hk)
  exact (Nat.add_le_add_right hle _).trans_lt (by decide)

theorem holdings_lt {k : Nat} (hk : k ≤ 10 ^ 9) : k * 10 ^ 9 < limit :=
  (Nat.mul_le_mul_right _ hk).trans_lt (by decide)

theorem exists_residual (h : Moderate entries) {d : Directive} (hd : d ∈ entries)
    {t : Transaction} (hbody : d.body = .transaction t) : ∃ r, t.residual.value? = some r := by
  have hps := h.within hd
  have hcount := h.length_postings_le hd
  rw [Directive.postings_of_transaction hbody] at hps hcount
  obtain ⟨r, hr, -⟩ := (residualOf_within hps (residual_lt hcount)).exists_value?
  exact ⟨r, hr⟩

theorem exists_realized (h : Moderate entries) :
    ∃ held, (Holdings.realized entries).value? = some held := by
  refine Holdings.exists_realized_of_within (M := 10 ^ 9) (fun p hp => ?_) (residual_lt h.count)
  obtain ⟨d, hd, hp⟩ := List.mem_flatMap.1 hp
  exact h.within hd p hp

/-- The directives move the accounts to a state in which all subtree totals fit. -/
theorem exists_state (h : Moderate entries) (hbefore : before <+: Directive.byDate entries) :
    ∃ s : State, (before.foldlM State.next {}).value? = some s ∧
      s.holdings.Within (10 ^ 9) (10 ^ 9) := by
  have hcount := h.count_le hbefore
  have hrun : (before.foldlM State.next {}).Ends
      (fun s => s.holdings.Within (10 ^ 9) (0 + (before.map fun d => d.postings.length).sum))
      fun _ => False := by
    refine Checked.Ends.foldlM_counted (fun n (s : State) => s.holdings.Within (10 ^ 9) n)
      (10 ^ 9) (fun d hd n s hn hs => ?_) (Holdings.within_empty _) (by omega)
    have hd := (Directive.byDate_perm entries).subset (hbefore.subset hd)
    exact Validation.next_within hs (h.within hd) (holdings_lt hn)
  obtain ⟨s, hs, hwithin⟩ := hrun.exists_value?
  exact ⟨s, hs, hwithin.mono (by omega)⟩

/-- A run through a moderate ledger keeps the accounts within bounds, or fails for another reason.
-/
theorem run_ends (h : Moderate entries) :
    (Validation.run rules (Directive.byDate entries)).Ends
      (fun now => now.1.holdings.Within (10 ^ 9)
        (0 + ((Directive.byDate entries).map fun d => d.postings.length).sum))
      (OtherFailure (10 ^ 9) entries) := by
  have hcount := h.count_le (List.prefix_refl _)
  refine Checked.Ends.foldlM_counted
    (fun n (now : State × List Violation) => now.1.holdings.Within (10 ^ 9) n)
    (10 ^ 9) (fun d hd n now hn hs => ?_) (Holdings.within_empty _) (by omega)
  have hd := (Directive.byDate_perm entries).subset hd
  exact Validation.step_within hs (subtree_lt (by omega)) hd (h.within hd)
    (residual_lt (by omega)) (holdings_lt hn)

/-- **No overflow inside a safe envelope.** In a moderate ledger every transaction has a residual,
and all entries can be realized. Validation, in whichever state it is, can go on putting the postings
of the next directive into the accounts, and total their subtrees; it fails only for want of a
tolerance, or by comparing what is held with a number larger than any of a posting. -/
theorem no_overflow (h : Moderate entries) :
    (∀ d ∈ entries, ∀ t, d.body = .transaction t → ∃ r, t.residual.value? = some r) ∧
    (∃ held, (Holdings.realized entries).value? = some held) ∧
    (∀ before, before <+: Directive.byDate entries → ∃ s : State,
      (before.foldlM State.next {}).value? = some s ∧
      (∀ rules now, (Validation.run rules before).value? = some now → now.1 = s) ∧
      ∀ order, order.Perm s.holdings.toList → ∀ account c,
        ∃ n, (Decimal.sum (Holdings.numbersWithin order account c)).value? = some n) ∧
    ∀ rules e, validate rules entries = .error e → OtherFailure (10 ^ 9) entries e := by
  refine ⟨fun d hd t => h.exists_residual hd, h.exists_realized, fun before hbefore => ?_,
    fun rules e he => ?_⟩
  · obtain ⟨s, hs, hwithin⟩ := h.exists_state hbefore
    refine ⟨s, hs, fun rules ⟨s', vs⟩ hrun => ?_, fun order horder account c => ?_⟩
    · have hmoved := Validation.foldlM_next_of_run hrun
      exact Option.some.inj (hmoved.symm.trans hs)
    · have hfits := Nat.lt_of_add_right_lt (subtree_lt (le_refl (10 ^ 9)))
      obtain ⟨n, hn, -⟩ := (hwithin.sum_numbersWithin hfits horder account c).exists_value?
      exact ⟨n, hn⟩
  · have hends : (validate rules entries).Ends (fun _ => True) (OtherFailure (10 ^ 9) entries) :=
      h.run_ends.bind fun _ _ => .exact trivial
    rw [he] at hends
    exact hends.of_error

/-- Purchases as large as they may be. -/
def bulkPurchases : List Directive :=
  [(Directive.Body.transaction {
      postings := [
        { Posting.plain "Assets:Broker" (.written "-999999999.9999999999") "HOOL" with
          cost := some {
            perUnit := some (.written "999999999.9999999999")
            total := some (.written "999999999.9999999999")
            currency := some "USD" } },
        { Posting.plain "Assets:Broker" (.written "999999999.99") "CHF" with
          price := some (.unit ⟨.written "0.9999999999999999999999999999", "USD"⟩) },
        .plain "Assets:Broker:Cash" (.written "999999999") "HOOL",
        { account := "Income:Gains" }] }).on 1,
   (Directive.Body.balance ⟨"Assets:Broker", ⟨.written "1.5", "HOOL"⟩, none⟩).on 2]

theorem moderate_bulkPurchases : Moderate bulkPurchases where
  numbers := by decide +kernel
  count := by decide +kernel

theorem no_overflow_bulkPurchases :
    Moderate bulkPurchases ∧
    (∀ d ∈ bulkPurchases, ∀ t, d.body = .transaction t → ∃ r, t.residual.value? = some r) ∧
    (∃ held, (Holdings.realized bulkPurchases).value? = some held) ∧
    (∀ before, before <+: Directive.byDate bulkPurchases → ∃ s : State,
      (before.foldlM State.next {}).value? = some s ∧
      (∀ rules now, (Validation.run rules before).value? = some now → now.1 = s) ∧
      ∀ order, order.Perm s.holdings.toList → ∀ account c,
        ∃ n, (Decimal.sum (Holdings.numbersWithin order account c)).value? = some n) ∧
    ∀ rules e, validate rules bulkPurchases = .error e →
      OtherFailure (10 ^ 9) bulkPurchases e :=
  ⟨moderate_bulkPurchases, moderate_bulkPurchases.no_overflow⟩

end Moderate

end DoubleEntry
