import DoubleEntry.Booking.Padding
import DoubleEntry.Proofs.Journal.Alone
import DoubleEntry.Proofs.Operations
import DoubleEntry.Proofs.Validation

/-!
# Tolerances

The tolerance of an amount is half a unit of its last place. It takes one place more than the
amount, so an amount with as many places as a decimal can have implies none, and whatever asks for it
fails.

* `Amount.exists_inferredTolerance_iff`: the amounts that imply a tolerance.
* `padding_eq_scaleTooLarge_iff`, `validate_eq_scaleTooLarge_iff`: where padding and validation fail
  for want of a tolerance.
* `hasTolerances_iff`: all tolerances exist if no amount has that many places.
-/

namespace DoubleEntry

open Decimal (maxScale)

/-! ## Amounts -/

/-- Half a unit needs one more place, and after the last one there is none. -/
theorem Decimal.halfUnit_eq_error_iff {scale : Nat} (h : scale ≤ maxScale) {e : ArithmeticError} :
    halfUnit scale = .error e ↔ e = .scaleTooLarge (maxScale + 1) ∧ scale = maxScale := by
  obtain rfl | hlt := Nat.eq_or_lt_of_le h
  · have hnone : ofParts? false 5 (maxScale + 1) = none := dif_neg (by omega)
    simp [halfUnit, hnone, eq_comm]
  · have hsome : ofParts? false 5 (scale + 1) = some _ := dif_pos ⟨by decide, by omega⟩
    simp [halfUnit, hsome, Nat.ne_of_lt hlt]

theorem Amount.inferredTolerance_eq_error_iff (a : Amount) {e : ArithmeticError} :
    a.inferredTolerance = .error e ↔
      e = .scaleTooLarge (maxScale + 1) ∧ a.number.scale = maxScale :=
  Decimal.halfUnit_eq_error_iff a.number.scale_le

/-- An amount implies a tolerance if it has fewer places than a decimal can have. -/
theorem Amount.exists_inferredTolerance_iff (a : Amount) :
    (∃ n, a.inferredTolerance.value? = some n) ↔ a.number.scale < maxScale := by
  rw [Checked.exists_value?_iff]
  simp only [ne_eq, inferredTolerance_eq_error_iff, not_and, forall_eq]
  have := a.number.scale_le
  omega

/-! ## Transactions and assertions -/

/-- A written amount of the transaction has too many places to imply a tolerance. -/
def Transaction.LacksTolerance (t : Transaction) : Prop :=
  ∃ p ∈ t.postings, p.isAutomatic = false ∧ ∃ a, p.amount? = some a ∧ a.number.scale = maxScale

/-- The assertion has no tolerance of its own, and its amount has too many places to imply one. -/
def Assertion.LacksTolerance (b : Assertion) : Prop :=
  b.tolerance = none ∧ b.amount.number.scale = maxScale

/-- The tolerances of some amounts fail at any amount with all places. -/
theorem tolerancesOf_eq_error_iff (amounts : List Amount) {e : ArithmeticError} :
    tolerancesOf amounts = .error e ↔
      e = .scaleTooLarge (maxScale + 1) ∧ ∃ a ∈ amounts, a.number.scale = maxScale := by
  suffices ∀ t : Totals,
      amounts.foldlM (fun t a => return t.raise a.currency (← a.inferredTolerance)) t = .error e ↔
        e = .scaleTooLarge (maxScale + 1) ∧ ∃ a ∈ amounts, a.number.scale = maxScale from this {}
  induction amounts with
  | nil => simp
  | cons a amounts ih =>
    intro t
    rw [List.foldlM_cons, Checked.bind_eq_error_iff, Checked.bind_eq_error_iff]
    simp only [a.inferredTolerance_eq_error_iff, ih, List.mem_cons, exists_eq_or_imp]
    constructor
    · rintro ((⟨rfl, ha⟩ | ⟨_, -, ⟨⟩⟩) | ⟨_, -, rfl, h⟩)
      · exact ⟨rfl, .inl ha⟩
      · exact ⟨rfl, .inr h⟩
    · rintro ⟨rfl, h⟩
      by_cases ha : a.number.scale = maxScale
      · exact .inl (.inl ⟨rfl, ha⟩)
      · have hlt : a.number.scale < maxScale := Nat.lt_of_le_of_ne a.number.scale_le ha
        obtain ⟨n, hn⟩ := a.exists_inferredTolerance_iff.2 hlt
        exact .inr ⟨_, by simp [hn]; rfl, rfl, h.resolve_left ha⟩

/-- The tolerances of a transaction fail in no other way. -/
theorem Transaction.tolerances_eq_error_iff (t : Transaction) {e : ArithmeticError} :
    t.tolerances = .error e ↔ e = .scaleTooLarge (maxScale + 1) ∧ t.LacksTolerance := by
  unfold tolerances LacksTolerance
  rw [tolerancesOf_eq_error_iff]
  simp only [List.mem_filterMap, List.mem_filter, Bool.not_eq_true']
  refine and_congr_right fun _ => ⟨?_, ?_⟩
  · rintro ⟨a, ⟨p, ⟨hp, hauto⟩, ha⟩, hscale⟩
    exact ⟨p, hp, hauto, a, ha, hscale⟩
  · rintro ⟨p, hp, hauto, a, ha, hscale⟩
    exact ⟨a, ⟨p, ⟨hp, hauto⟩, ha⟩, hscale⟩

/-- An assertion that states its tolerance does not infer one. -/
theorem Assertion.effectiveTolerance_eq_error_iff (b : Assertion) {e : ArithmeticError} :
    b.effectiveTolerance = .error e ↔ e = .scaleTooLarge (maxScale + 1) ∧ b.LacksTolerance := by
  unfold effectiveTolerance LacksTolerance
  cases b.tolerance with
  | none => simpa using b.amount.inferredTolerance_eq_error_iff
  | some n => simp

/-! ## Padding -/

namespace Padding

variable {s : State} {scale : Nat}

/-- The directive asks for a tolerance that does not exist: it is an assertion that meets a pad,
and what its account lacks can be told. -/
def State.LacksTolerance (s : State) (d : Directive) : Prop :=
  ∃ b, d.body = .balance b ∧ (s.padFor? b).isSome ∧
    (∃ difference, (b.amount.number.sub (s.held b)).value? = some difference) ∧ b.LacksTolerance

/-- Padding infers the tolerance of an assertion only if a pad applies to it. -/
theorem State.addAssertion_eq_scaleTooLarge_iff (b : Assertion) :
    s.addAssertion b = .error (.scaleTooLarge scale) ↔
      scale = maxScale + 1 ∧ (s.padFor? b).isSome ∧
        (∃ difference, (b.amount.number.sub (s.held b)).value? = some difference) ∧
        b.LacksTolerance := by
  unfold addAssertion
  cases hpad : s.padFor? b with
  | none => simp
  | some pad =>
    have hsub := b.amount.number.sub_operates (s.held b)
    have hrest (difference : Amount) (tolerance : Decimal) :
        (if difference.number.abs ≤ tolerance then return s.use b pad
        else do
          let holdings ← (s.use b pad).holdings.add pad.entry.pad.account difference
          let holdings ← holdings.add pad.entry.pad.source difference.neg
          return { s.use b pad with
            holdings
            transactions := (s.use b pad).transactions ++
              [pad.entry.transaction b.amount difference] }).Operates := by
      split
      · exact .exact _
      · exact (Holdings.add_operates _ _ _).bind fun _ =>
          (Holdings.add_operates _ _ _).bind fun _ => .exact _
    constructor
    · intro h
      obtain ⟨difference, hdifference, h⟩ := hsub.bind_eq_scaleTooLarge_iff.1 h
      rw [Checked.bind_eq_scaleTooLarge_iff (hrest ⟨difference, _⟩),
        b.effectiveTolerance_eq_error_iff] at h
      exact ⟨ArithmeticError.scaleTooLarge.inj h.1, rfl, ⟨difference, hdifference⟩, h.2⟩
    · rintro ⟨rfl, -, ⟨difference, hdifference⟩, hb⟩
      refine hsub.bind_eq_scaleTooLarge_iff.2 ⟨difference, hdifference, ?_⟩
      rw [Checked.bind_eq_scaleTooLarge_iff (hrest ⟨difference, _⟩),
        b.effectiveTolerance_eq_error_iff]
      exact ⟨rfl, hb⟩

theorem State.step_eq_scaleTooLarge_iff (d : Directive) :
    s.step d = .error (.scaleTooLarge scale) ↔ scale = maxScale + 1 ∧ s.LacksTolerance d := by
  unfold step LacksTolerance
  cases hbody : d.body with
  | transaction t =>
    have hadd := (s.holdings.addPostings_operates t.postings).bind fun holdings =>
      Checked.Operates.exact { s with holdings }
    simpa using hadd.ne_scaleTooLarge scale
  | balance b => simpa using s.addAssertion_eq_scaleTooLarge_iff b
  | _ => simp

end Padding

/-- Padding fails for want of a tolerance exactly where an assertion meets a pad, the difference can
be told, and the assertion neither has a tolerance nor implies one. -/
theorem padding_eq_scaleTooLarge_iff (ds : List Directive) {scale : Nat} :
    padding ds = .error (.scaleTooLarge scale) ↔
      scale = maxScale + 1 ∧ ∃ before d after s, Directive.sort ds = before ++ d :: after ∧
        (Padding.run before).value? = some s ∧ s.LacksTolerance d := by
  unfold padding Padding.run
  rw [Checked.bind_eq_scaleTooLarge_iff fun s => .pure _, Checked.foldlM_eq_error_iff]
  simp only [Padding.State.step_eq_scaleTooLarge_iff]
  constructor
  · rintro ⟨before, d, after, s, hds, hs, rfl, hd⟩
    exact ⟨rfl, before, d, after, s, hds, hs, hd⟩
  · rintro ⟨rfl, before, d, after, s, hds, hs, hd⟩
    exact ⟨before, d, after, s, hds, hs, rfl, hd⟩

/-! ## Validation -/

namespace Validation

variable {s : State} {rules : Rules} {scale : Nat}

/-- The directive asks for a tolerance that does not exist: it is a transaction, or an assertion on
an account that was opened, and what the account holds can be told. -/
def State.LacksTolerance (s : State) (d : Directive) : Prop :=
  (∃ t, d.body = .transaction t ∧ t.LacksTolerance) ∨
    ∃ b, d.body = .balance b ∧ s.accounts.contains b.account ∧
      (∃ held, (s.holdings.subtreeUnits b.account b.amount.currency).value? = some held) ∧
      b.LacksTolerance

theorem State.transactionProblems_eq_scaleTooLarge_iff (date : Date) (t : Transaction) :
    s.transactionProblems rules date t = .error (.scaleTooLarge scale) ↔
      scale = maxScale + 1 ∧ t.LacksTolerance := by
  unfold transactionProblems
  split
  · rename_i hempty
    simp only [Checked.pure_eq, reduceCtorEq, false_iff, not_and]
    rintro - ⟨p, hp, -⟩
    rw [List.isEmpty_iff.1 hempty] at hp
    exact absurd hp List.not_mem_nil
  · have hresidual := t.residual_operates
    rw [Checked.bind_eq_scaleTooLarge_iff fun _ => .pure _, residualProblems,
      Checked.bind_eq_scaleTooLarge_iff fun _ => hresidual.bind fun _ => .pure _,
      t.tolerances_eq_error_iff, ArithmeticError.scaleTooLarge.injEq]

theorem State.heldProblems_eq_scaleTooLarge_iff (b : Assertion) :
    s.heldProblems b = .error (.scaleTooLarge scale) ↔ scale = maxScale + 1 ∧
      (∃ held, (s.holdings.subtreeUnits b.account b.amount.currency).value? = some held) ∧
      b.LacksTolerance := by
  have hheld := s.holdings.subtreeUnits_operates b.account b.amount.currency
  have hrest (held : Decimal) : (b.effectiveTolerance >>= fun tolerance => do
      let excess ← held.sub b.amount.number
      return if excess.abs ≤ tolerance then []
        else [Problem.assertionFailed b.account b.amount held excess]) =
          .error (.scaleTooLarge scale) ↔ scale = maxScale + 1 ∧ b.LacksTolerance := by
    rw [Checked.bind_eq_scaleTooLarge_iff fun _ =>
      (Decimal.sub_operates _ _).bind fun _ => .pure _, b.effectiveTolerance_eq_error_iff,
      ArithmeticError.scaleTooLarge.injEq]
  unfold heldProblems
  rw [hheld.bind_eq_scaleTooLarge_iff]
  simp only [hrest]
  tauto

/-- Checking an assertion infers its tolerance only if the account was opened. -/
theorem State.assertionProblems_eq_scaleTooLarge_iff (date : Date) (b : Assertion) :
    s.assertionProblems date b = .error (.scaleTooLarge scale) ↔
      scale = maxScale + 1 ∧ s.accounts.contains b.account ∧
        (∃ held, (s.holdings.subtreeUnits b.account b.amount.currency).value? = some held) ∧
        b.LacksTolerance := by
  unfold assertionProblems
  dsimp only
  split
  · rename_i hopened
    rw [Checked.bind_eq_scaleTooLarge_iff fun _ => .pure _,
      s.heldProblems_eq_scaleTooLarge_iff]
    simp only [hopened, true_and]
  · rename_i hopened
    simp [hopened]

theorem State.next_operates (d : Directive) : (s.next d).Operates := by
  unfold next
  split
  · exact .exact _
  · exact .exact _
  · exact .exact _
  · exact (s.holdings.addPostings_operates _).bind fun _ => .exact _
  · exact .exact _

/-- A directive needs a tolerance that does not exist, or validating it fails otherwise. -/
theorem step_eq_scaleTooLarge_iff (violations : List Violation) (d : Directive) :
    step rules (s, violations) d = .error (.scaleTooLarge scale) ↔
      scale = maxScale + 1 ∧ s.LacksTolerance d := by
  unfold step
  have hnext := s.next_operates d
  rw [Checked.bind_eq_scaleTooLarge_iff fun _ => hnext.bind fun _ => .pure _]
  unfold State.problems State.LacksTolerance
  cases hbody : d.body with
  | transaction t => simpa using s.transactionProblems_eq_scaleTooLarge_iff d.date t
  | balance b => simpa using s.assertionProblems_eq_scaleTooLarge_iff d.date b
  | _ => simp

end Validation

theorem Directive.byDate_perm (ds : List Directive) : (byDate ds).Perm ds :=
  List.mergeSort_perm ds _

/-- Validation fails for want of a tolerance exactly where it comes to a transaction or an assertion
that asks for a tolerance that does not exist. -/
theorem validate_eq_scaleTooLarge_iff (rules : Validation.Rules) (ds : List Directive)
    {scale : Nat} :
    validate rules ds = .error (.scaleTooLarge scale) ↔
      scale = maxScale + 1 ∧ ∃ before d after s violations,
        Directive.byDate ds = before ++ d :: after ∧
          (Validation.run rules before).value? = some (s, violations) ∧ s.LacksTolerance d := by
  rw [validate_eq_run, map_eq_pure_bind]
  unfold Validation.run
  rw [Checked.bind_eq_scaleTooLarge_iff fun s => .pure _, Checked.foldlM_eq_error_iff]
  constructor
  · rintro ⟨before, d, after, ⟨s, violations⟩, hds, hs, h⟩
    obtain ⟨rfl, hd⟩ := (Validation.step_eq_scaleTooLarge_iff violations d).1 h
    exact ⟨rfl, before, d, after, s, violations, hds, hs, hd⟩
  · rintro ⟨rfl, before, d, after, s, violations, hds, hs, hd⟩
    exact ⟨before, d, after, (s, violations), hds, hs,
      (Validation.step_eq_scaleTooLarge_iff violations d).2 ⟨rfl, hd⟩⟩

/-! ## Ledgers -/

/-- The amount that a value is. -/
def MetaValue.amount? : MetaValue → Option Amount
  | .amount a => some a
  | _ => none

/-- The amounts in metadata. -/
def Metadata.amounts (m : Metadata) : List Amount := m.entries.filterMap (·.2.amount?)

/-- The units and the price of a posting, and the amounts in its metadata. -/
def Posting.amounts (p : Posting) : List Amount :=
  p.amount?.toList ++ (p.price.map (·.amount)).toList ++ p.metadata.amounts

/-- All amounts of a directive. -/
def Directive.amounts (d : Directive) : List Amount :=
  d.metadata.amounts ++
    match d.body with
    | .transaction t => t.postings.flatMap Posting.amounts
    | .balance b => [b.amount]
    | .price _ a => [a]
    | .custom _ values => values.filterMap MetaValue.amount?
    | _ => []

/-- The units of a posting are among the amounts of its directive. -/
theorem Directive.mem_amounts_of_posting {d : Directive} {t : Transaction} {p : Posting}
    {a : Amount} (hd : d.body = .transaction t) (hp : p ∈ t.postings) (ha : p.amount? = some a) :
    a ∈ d.amounts := by
  have hmem : a ∈ p.amounts := by simp [Posting.amounts, ha]
  simp only [amounts, hd, List.mem_append, List.mem_flatMap]
  exact .inr ⟨p, hp, hmem⟩

theorem Directive.mem_amounts_of_balance {d : Directive} {b : Assertion}
    (hd : d.body = .balance b) : b.amount ∈ d.amounts := by
  simp [amounts, hd]

/-- Every amount of some directives implies a tolerance, and neither their transactions and
assertions nor padding and validation ask for one that does not exist. -/
structure HasTolerances (ds : List Directive) : Prop where
  amounts : ∀ d ∈ ds, ∀ a ∈ d.amounts, ∃ n, a.inferredTolerance.value? = some n
  transactions : ∀ d ∈ ds, ∀ t, d.body = .transaction t → ∃ n, t.tolerances.value? = some n
  assertions : ∀ d ∈ ds, ∀ b, d.body = .balance b → ∃ n, b.effectiveTolerance.value? = some n
  padding : ∀ scale, padding ds ≠ .error (.scaleTooLarge scale)
  validation : ∀ rules scale, validate rules ds ≠ .error (.scaleTooLarge scale)

/-- All tolerances exist exactly if every amount has fewer places than a decimal can have. -/
theorem hasTolerances_iff (ds : List Directive) :
    HasTolerances ds ↔ ∀ d ∈ ds, ∀ a ∈ d.amounts, a.number.scale < maxScale := by
  constructor
  · intro h d hd a ha
    exact a.exists_inferredTolerance_iff.1 (h.amounts d hd a ha)
  · intro h
    have htransaction (d) (hd : d ∈ ds) (t) (ht : d.body = .transaction t) : ¬t.LacksTolerance := by
      rintro ⟨p, hp, -, a, ha, hscale⟩
      exact Nat.ne_of_lt (h d hd a (Directive.mem_amounts_of_posting ht hp ha)) hscale
    have hassertion (d) (hd : d ∈ ds) (b) (hb : d.body = .balance b) : ¬b.LacksTolerance :=
      fun hlacks => Nat.ne_of_lt (h d hd _ (Directive.mem_amounts_of_balance hb)) hlacks.2
    exact {
      amounts := fun d hd a ha => a.exists_inferredTolerance_iff.2 (h d hd a ha)
      transactions := fun d hd t ht => Checked.exists_value?_iff.2 fun e he =>
        htransaction d hd t ht (t.tolerances_eq_error_iff.1 he).2
      assertions := fun d hd b hb => Checked.exists_value?_iff.2 fun e he =>
        hassertion d hd b hb (b.effectiveTolerance_eq_error_iff.1 he).2
      padding := by
        intro scale herror
        obtain ⟨-, before, d, after, s, hds, -, b, hb, -, -, hlacks⟩ :=
          (padding_eq_scaleTooLarge_iff ds).1 herror
        have hd : d ∈ ds := (Directive.sort_perm ds).mem_iff.1 (by simp [hds])
        exact hassertion d hd b hb hlacks
      validation := by
        intro rules scale herror
        obtain ⟨-, before, d, after, s, violations, hds, -, hlacks⟩ :=
          (validate_eq_scaleTooLarge_iff rules ds).1 herror
        have hd : d ∈ ds := (Directive.byDate_perm ds).mem_iff.1 (by simp [hds])
        obtain ⟨t, ht, hlacks⟩ | ⟨b, hb, -, -, hlacks⟩ := hlacks
        · exact htransaction d hd t ht hlacks
        · exact hassertion d hd b hb hlacks }

/-! ## A third -/

/-- A third, to as many places as there can be. -/
def third : Decimal where
  negative := false
  coefficient := 3333333333333333333333333333
  scale := 28

/-- A currency at the end of a line. -/
def currencyThird : Line where
  indent := none
  tokens := [⟨.currency, ⟨63, 66⟩, 2, "USD"⟩]
  ending := ⟨66, 67⟩

/-- The quotient of two numbers, and the currency. -/
def quotientThird : Line :=
  currencyThird.withTokens
    (⟨.number, ⟨59, 60⟩, 2, "1"⟩ :: ⟨.slash, ⟨60, 61⟩, 2, "/"⟩ :: ⟨.number, ⟨61, 62⟩, 2, "3"⟩ ::
      currencyThird.tokens)

theorem expression_third :
    quotientThird.expression = ExceptT.lift (.rounded (third, ⟨currencyThird, by decide⟩)) := by
  have hfactors (n : Decimal) :
      currencyThird.moreFactors n = pure (n, ⟨currencyThird, by decide⟩) := by
    rw [Line.moreFactors]
    rfl
  have hproducts (n : Decimal) :
      currencyThird.moreProducts n = pure (n, ⟨currencyThird, by decide⟩) := by
    rw [Line.moreProducts]
    rfl
  have hone : Decimal.ofChars? ("1".toList.filter (· ≠ ',')) = some .one := by decide +kernel
  have hthree : Decimal.ofChars? ("3".toList.filter (· ≠ ',')) =
      some ⟨false, 3, 0, by decide, by decide⟩ := by decide +kernel
  have hdiv : Decimal.one.div ⟨false, 3, 0, by decide, by decide⟩ = .rounded third := by
    decide +kernel
  rw [Line.expression, Line.product, Line.factor]
  simp only [quotientThird, Line.withTokens, Line.numberValue, hone, pure_bind]
  rw [Line.moreFactors]
  simp only [Line.withTokens]
  rw [Line.factor]
  simp only [Line.withTokens, Line.numberValue, hthree, pure_bind, Line.quotient, hdiv]
  change ((ExceptT.lift (.rounded third) >>= fun n => currencyThird.moreFactors n >>= _) >>= _) >>=
    _ = _
  simp only [hfactors, bind_assoc, pure_bind, hproducts]
  rfl

/-- A third of a unit, asserted of an account. -/
def assertedThird : String :=
  "2024-01-01 open Assets:Cash\n2024-01-02 balance Assets:Cash 1/3 USD\n"

/-- The line that opens the account. -/
def openingLine : Line where
  indent := none
  tokens := [⟨.date, ⟨0, 10⟩, 1, "2024-01-01"⟩, ⟨.keyword .opening, ⟨11, 15⟩, 1, "open"⟩,
    ⟨.account, ⟨16, 27⟩, 1, "Assets:Cash"⟩]
  ending := ⟨27, 28⟩

/-- The line of the assertion. -/
def assertionLine : Line :=
  currencyThird.withTokens
    (⟨.date, ⟨28, 38⟩, 2, "2024-01-02"⟩ :: ⟨.keyword .balance, ⟨39, 46⟩, 2, "balance"⟩ ::
      ⟨.account, ⟨47, 58⟩, 2, "Assets:Cash"⟩ :: quotientThird.tokens)

/-- The account is opened on the first day of a year. -/
def openingOfCash : Placed Directive where
  value :=
    { date := .afterNewYear 0
      metadata := ({} : Metadata).setLine 1
      body := .opening "Assets:Cash" [] none }
  span := ⟨0, 28⟩

/-- The assertion is of the day after. -/
def assertionOfThird : Placed Directive where
  value :=
    { date := .afterNewYear 1
      metadata := ({} : Metadata).setLine 2
      body := .balance { account := "Assets:Cash", amount := ⟨third, "USD"⟩ } }
  span := ⟨28, 67⟩

/-- A text in which a third is asserted is read without an error. -/
theorem ofText_assertedThird :
    (Journal.ofText assertedThird).value? =
      some ⟨[.directive openingOfCash, .directive assertionOfThird]⟩ := by
  have hscan : Token.scan assertedThird =
      openingLine.tokens ++ ⟨.newline, ⟨27, 28⟩, 1, "\n"⟩ :: assertionLine.tokens ++
        [⟨.newline, ⟨66, 67⟩, 2, "\n"⟩] := by decide +kernel
  have hblocks : Block.ofLines (Line.ofTokens (Token.scan assertedThird)) =
      ([], [⟨openingLine, []⟩, ⟨assertionLine, []⟩]) := by
    rw [hscan]
    rfl
  have hopening : Block.directive {} ⟨openingLine, []⟩ = pure (openingOfCash, []) := by
    rw [Block.directive, Line.date_of_tokens rfl rfl
      (show _ = some (.afterNewYear 0) by decide +kernel)]
    rfl
  have hassertion : Block.directive {} ⟨assertionLine, []⟩ =
      ExceptT.lift (.rounded (assertionOfThird, [])) := by
    rw [Block.directive, Line.date_of_tokens rfl rfl
      (show _ = some (.afterNewYear 1) by decide +kernel)]
    change ((quotientThird.expression >>= _) >>= _) = _
    rw [expression_third]
    rfl
  rw [Journal.ofText, Journal.value?_ofTokens, hblocks]
  refine ⟨none, _, rfl, ?_, rfl⟩
  have hstep : Block.step {} ⟨openingLine, []⟩ =
      .exact ⟨some (.directive openingOfCash), {}, []⟩ := by
    change Step.ofReading {} (Block.directive {} ⟨openingLine, []⟩) _ = _
    rw [hopening]
    rfl
  have hstep' : Block.step {} ⟨assertionLine, []⟩ =
      .rounded ⟨some (.directive assertionOfThird), {}, []⟩ := by
    change Step.ofReading {} (Block.directive {} ⟨assertionLine, []⟩) _ = _
    rw [hassertion]
    rfl
  simp only [Block.items, hstep, Checked.exact_bind, hstep']
  rfl

/-- The text has no errors, but validating what it says fails for want of a tolerance. -/
theorem validate_assertedThird :
    ∃ j, (Journal.ofText assertedThird).value? = some j ∧ j.errors = [] ∧
      validate {} (j.directives.map (·.value)) = .error (.scaleTooLarge 29) := by
  refine ⟨_, ofText_assertedThird, rfl, ?_⟩
  rw [validate_of_isSorted (by decide)]
  decide +kernel

end DoubleEntry
