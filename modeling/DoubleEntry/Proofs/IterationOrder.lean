import Mathlib.Data.List.Forall2
import Mathlib.Data.List.Permutation
import DoubleEntry.Proofs.Decimal.Places
import DoubleEntry.Proofs.Decimal.Text
import DoubleEntry.Proofs.Sample
import DoubleEntry.Proofs.Validation

/-!
# Validation and the order of the accounts

What an account and those below it hold is summed in the order of the names. Here the accounts may
come in any order, and in another one at every assertion (`Arrangement`).

* `validateIn_byName`: in the order of the names this is `validate`.
* `validateIn_alike`: in any order the same problems are found, up to the places of the numbers.
* `validateIn_same_iff`: the places are the same in any order exactly if, at every assertion that
  fails, they do not depend on the order of the sum (`Decimal.OrderMatters`).
-/

namespace DoubleEntry

/-- The units of a currency that an account and those below it hold, one number for each of them. -/
def Holdings.numbersWithin (entries : List (Account × Inventory)) (account : Account)
    (currency : Currency) : List Decimal :=
  (entries.filter fun (name, _) => Account.isWithin name account).map
    fun (_, inventory) => inventory.units currency

/-- What is wrong with the number that an assertion claims, given what is held. -/
def Assertion.problemsFor (b : Assertion) (held : Decimal) : Checked (List Problem) := do
  let tolerance ← b.effectiveTolerance
  let excess ← held.sub b.amount.number
  return if excess.abs ≤ tolerance then [] else [.assertionFailed b.account b.amount held excess]

namespace Validation

/-- What is wrong with a directive, with the accounts in the order of some entries. -/
def State.problemsIn (s : State) (rules : Rules) (entries : List (Account × Inventory))
    (d : Directive) : Checked (List Problem) :=
  match d.body with
  | .balance b =>
    let use := s.useProblems b.account d.date
    if s.accounts.contains b.account then do
      let held ← Decimal.sum (Holdings.numbersWithin entries b.account b.amount.currency)
      return use ++ (← b.problemsFor held)
    else return use
  | _ => s.problems rules d

/-- An order of the accounts that hold something, at every point of a run: it may depend on all that
came before. -/
structure Arrangement where
  entries (seen : List Directive) (h : Holdings) : List (Account × Inventory)
  perm (seen : List Directive) (h : Holdings) : (entries seen h).Perm h.toList

namespace Arrangement

/-- The order of the names. -/
def byName : Arrangement where
  entries _ h := h.toList
  perm _ _ := .refl _

/-- The reverse order of the names. -/
def byNameReversed : Arrangement where
  entries _ h := h.toList.reverse
  perm _ h := h.toList.reverse_perm

/-- The order of the given entries after some directives, and otherwise that of the names. -/
def after (before : List Directive) (entries : List (Account × Inventory)) : Arrangement where
  entries seen h := if seen = before ∧ entries.Perm h.toList then entries else h.toList
  perm seen h := by
    split
    · next hperm => exact hperm.2
    · exact .refl _

end Arrangement

/-- Checks one directive after those before it, with the accounts in the order that is due. -/
def stepIn (o : Arrangement) (rules : Rules) (before : List Directive × State × List Violation)
    (d : Directive) : Checked (List Directive × State × List Violation) := do
  let (seen, state, violations) := before
  let problems ← state.problemsIn rules (o.entries seen state.holdings) d
  return (seen ++ [d], ← state.next d, violations ++ problems.map (⟨·, d.date, d.location?⟩))

/-- What was gone through, the state after it, and what is wrong with it. -/
def runIn (o : Arrangement) (rules : Rules) (l : List Directive) :
    Checked (List Directive × State × List Violation) :=
  l.foldlM (stepIn o rules) ([], {}, [])

end Validation

open Validation

/-- Everything that is wrong with some directives, found with the accounts in any order. -/
def validateIn (o : Arrangement) (rules : Rules) (l : List Directive) : Checked (List Violation) :=
  return (← runIn o rules (Directive.byDate l)).2.2

/-! ## What is told -/

/-- The same problem, up to the places of the numbers of an assertion that fails. -/
inductive Problem.Alike : Problem → Problem → Prop
  | refl (p : Problem) : Alike p p
  | assertionFailed (account : Account) (asserted : Amount) {held held' excess excess' : Decimal}
    (hheld : held.Equals held') (hexcess : excess.Equals excess') :
    Alike (.assertionFailed account asserted held excess)
      (.assertionFailed account asserted held' excess')

namespace Violation

/-- The problems of two violations are related, and date and place are the same. -/
def Related (R : Problem → Problem → Prop) (v v' : Violation) : Prop :=
  R v.problem v'.problem ∧ v.date = v'.date ∧ v.location = v'.location

/-- What a violation tells: code, message, date and place. -/
def told (v : Violation) : String × String × Date × Option Location :=
  (v.problem.code, v.problem.message, v.date, v.location)

theorem eq_of_related {vs vs' : List Violation} (h : List.Forall₂ (Related Eq) vs' vs) :
    vs' = vs := by
  rw [← List.forall₂_eq_eq_eq]
  refine h.imp ?_
  rintro ⟨problem', date', location'⟩ ⟨problem, date, location⟩ ⟨hproblem, hdate, hlocation⟩
  obtain rfl : problem' = problem := hproblem
  obtain rfl : date' = date := hdate
  obtain rfl : location' = location := hlocation
  rfl

end Violation

namespace Problem

theorem exists_message (account : Account) (asserted : Amount) : ∃ before : String,
    ∀ held excess, ∃ rest, (assertionFailed account asserted held excess).message =
      before ++ (held.text ++ (" " ++ rest)) := by
  refine ⟨"Balance failed for '" ++ account ++ "': expected " ++ asserted.text ++
    " != accumulated ", fun held excess => ⟨asserted.currency ++ " (" ++ excess.abs.text ++ " " ++
      (if excess.negative then "too little" else "too much") ++ ")", ?_⟩⟩
  unfold message
  simp only [toString, String.append_assoc]

/-- The message of an assertion that fails shows all places of what is held. -/
theorem scale_of_message {account : Account} {asserted : Amount}
    {held held' excess excess' : Decimal}
    (h : (assertionFailed account asserted held excess).message =
      (assertionFailed account asserted held' excess').message) : held.scale = held'.scale := by
  obtain ⟨before, hmessage⟩ := exists_message account asserted
  obtain ⟨rest, hrest⟩ := hmessage held excess
  obtain ⟨rest', hrest'⟩ := hmessage held' excess'
  rw [hrest, hrest', String.append_right_inj] at h
  have hchars : held.toChars ++ ' ' :: rest.toList = held'.toChars ++ ' ' :: rest'.toList := by
    simpa [Decimal.text] using congrArg String.toList h
  -- No character of a number is a blank, so the number ends at the first one.
  have hblank : ∀ a : Decimal, ∀ rest : List Char,
      (a.toChars ++ ' ' :: rest).takeWhile (· ≠ ' ') = a.toChars := by
    intro a rest
    have hall : ∀ c ∈ a.toChars, decide (c ≠ ' ') := by
      intro c hc
      rcases Decimal.of_mem_toChars hc with rfl | hdigit | rfl
      · decide
      · refine decide_eq_true ?_
        rintro rfl
        cases hdigit
      · decide
    rw [List.takeWhile_append_of_pos hall]
    simp
  have hsame : held.toChars = held'.toChars := by
    rw [← hblank held rest.toList, hchars, hblank]
  have hread := congrArg Decimal.ofChars? hsame
  rw [Decimal.ofChars?_toChars, Decimal.ofChars?_toChars, Option.some_inj] at hread
  show held.readBack.scale = held'.readBack.scale
  rw [hread]

end Problem

/-! ## One assertion -/

/-- The number that an assertion claims is wrong for what is held, or it is not; the places of what
is held play no part in that. -/
theorem Assertion.problemsFor_alike {b : Assertion} {held held' : Decimal}
    {problems problems' : List Problem} (hvalue : held'.value = held.value)
    (h : b.problemsFor held = .exact problems) (h' : b.problemsFor held' = .exact problems') :
    (problems' = [] ∧ problems = []) ∨ ∃ excess excess', excess'.Equals excess ∧
      problems' = [.assertionFailed b.account b.amount held' excess'] ∧
      problems = [.assertionFailed b.account b.amount held excess] := by
  obtain ⟨tolerance, htolerance, h⟩ := Checked.bind_eq_exact.1 h
  obtain ⟨excess, hexcess, h⟩ := Checked.bind_eq_exact.1 h
  obtain ⟨tolerance', htolerance', h'⟩ := Checked.bind_eq_exact.1 h'
  obtain ⟨excess', hexcess', h'⟩ := Checked.bind_eq_exact.1 h'
  obtain rfl : tolerance = tolerance' := Checked.exact.inj (htolerance.symm.trans htolerance')
  have hequal : excess'.value = excess.value := by
    rw [Decimal.value_sub hexcess, Decimal.value_sub hexcess', hvalue]
  have hle : excess'.abs ≤ tolerance ↔ excess.abs ≤ tolerance := by
    rw [Decimal.le_iff, Decimal.le_iff, Decimal.value_abs, Decimal.value_abs, hequal]
  obtain rfl := Checked.exact.inj h
  obtain rfl := Checked.exact.inj h'
  by_cases hwithin : excess.abs ≤ tolerance
  · left
    rw [if_pos hwithin, if_pos (hle.2 hwithin)]
    exact ⟨rfl, rfl⟩
  · right
    refine ⟨excess, excess', Decimal.equals_iff.2 hequal, ?_, ?_⟩
    · rw [if_neg fun h => hwithin (hle.1 h)]
    · rw [if_neg hwithin]

theorem Holdings.tidy_numbersWithin {h : Holdings} (hz : h.HasNoZeros)
    {entries : List (Account × Inventory)} (hperm : entries.Perm h.toList) (account : Account)
    (currency : Currency) : ∀ d ∈ numbersWithin entries account currency, d.Tidy := by
  intro d hd hzero
  obtain ⟨e, he, rfl⟩ := List.mem_map.1 hd
  have hmem := hperm.mem_iff.1 (List.mem_of_mem_filter he)
  have hinventory := hz e.1
  rw [inventory_of_mem hmem] at hinventory
  exact hinventory.units_eq_zero hzero

theorem Holdings.perm_numbersWithin {entries entries' : List (Account × Inventory)}
    (h : entries.Perm entries') (account : Account) (currency : Currency) :
    (numbersWithin entries account currency).Perm (numbersWithin entries' account currency) :=
  (h.filter _).map _

/-- Every order of the numbers comes from one of the accounts. -/
theorem Holdings.exists_perm_numbersWithin {entries : List (Account × Inventory)}
    {account : Account} {currency : Currency} {l : List Decimal}
    (h : l.Perm (numbersWithin entries account currency)) :
    ∃ entries', entries'.Perm entries ∧ numbersWithin entries' account currency = l := by
  have hcomp := congrFun (congrFun (List.eq_map_comp_perm fun e : Account × Inventory =>
    e.2.units currency) l) (entries.filter fun e => Account.isWithin e.1 account)
  obtain ⟨within, rfl, hwithin⟩ := hcomp.mpr h
  refine ⟨within ++ entries.filter fun e => !Account.isWithin e.1 account, ?_, ?_⟩
  · exact (hwithin.append_right _).trans (List.filter_append_perm _ entries)
  · have hall : within.filter (fun e => Account.isWithin e.1 account) = within := by
      refine List.filter_eq_self.2 fun e he => ?_
      exact (List.mem_filter.1 (hwithin.mem_iff.1 he)).2
    rw [numbersWithin, List.filter_append, hall, List.filter_filter]
    simp

namespace Validation

variable {rules : Rules} {s : State} {d : Directive} {b : Assertion} {l : List Directive}
  {entries : List (Account × Inventory)} {vs : List Violation} {problems : List Problem}

theorem hasNoZeros_run {strict : Bool} (h : (run rules l).Gives strict (s, vs)) :
    s.holdings.HasNoZeros := by
  obtain ⟨moved, -, hmoved⟩ := movedBy_run h
  refine Holdings.hasNoZeros_addPostings ?_ hmoved
  exact fun account => Inventory.hasNoZeros_empty

/-- The order of the accounts plays no part in anything but an assertion. -/
theorem problemsIn_of_not_balance (h : ∀ b, d.body ≠ .balance b) :
    s.problemsIn rules entries d = s.problems rules d := by
  unfold State.problemsIn
  split
  · next b hb => exact absurd hb (h b)
  · rfl

theorem problemsIn_byName : s.problemsIn rules s.holdings.toList d = s.problems rules d := by
  unfold State.problemsIn
  split
  · next b hb =>
    rw [State.problems, hb]
    by_cases hopened : s.accounts.contains b.account
    · simp only [State.assertionProblems, State.heldProblems, Assertion.problemsFor, hopened,
        if_true, bind_assoc]
      rfl
    · simp only [State.assertionProblems, hopened]
      rfl
  · rfl

/-- At an assertion on an account that was opened, what is held is a sum in the order of the
accounts. -/
theorem problemsIn_of_sum {held : Decimal} {found : List Problem} (hbody : d.body = .balance b)
    (hopened : s.accounts.contains b.account)
    (hheld : Decimal.sum (Holdings.numbersWithin entries b.account b.amount.currency) =
      .exact held)
    (hfound : b.problemsFor held = .exact found) :
    s.problemsIn rules entries d = .exact (s.useProblems b.account d.date ++ found) := by
  unfold State.problemsIn
  rw [hbody]
  simp only [hopened, if_true, hheld, hfound, Checked.exact_bind]
  rfl

/-- What an account and those below it hold can be summed exactly in any order, and told exactly how
much more that is than asserted. -/
def State.SumsExactly (s : State) (b : Assertion) : Prop :=
  ∀ entries : List (Account × Inventory), entries.Perm s.holdings.toList →
    ∃ held found,
      Decimal.sum (Holdings.numbersWithin entries b.account b.amount.currency) = .exact held ∧
      b.problemsFor held = .exact found

/-- What an assertion sums, in the order of the names. -/
def State.numbersOf (s : State) (b : Assertion) : List Decimal :=
  Holdings.numbersWithin s.holdings.toList b.account b.amount.currency

/-- An assertion on an account that was never opened sums nothing. -/
theorem problemsIn_of_unopened (hbody : d.body = .balance b)
    (hopened : ¬s.accounts.contains b.account) :
    s.problemsIn rules entries d = s.problems rules d := by
  rw [← problemsIn_byName, State.problemsIn, State.problemsIn, hbody]
  simp only [hopened]
  rfl

/-- On an account that was opened, an assertion holds in any order of the accounts, or it fails in
any, each time with the sum in that order. -/
theorem problemsIn_of_opened (hexact : s.SumsExactly b) (hbody : d.body = .balance b)
    (hopened : s.accounts.contains b.account) (hperm : entries.Perm s.holdings.toList)
    (h : (s.problems rules d).value? = some problems) :
    ∃ held held',
      Decimal.sum (s.numbersOf b) = .exact held ∧
      Decimal.sum (Holdings.numbersWithin entries b.account b.amount.currency) = .exact held' ∧
      held'.Equals held ∧
      (problems = s.useProblems b.account d.date ∧
          s.problemsIn rules entries d = .exact (s.useProblems b.account d.date) ∨
        ∃ excess excess', excess'.Equals excess ∧ (held' = held → excess' = excess) ∧
          problems = s.useProblems b.account d.date ++
            [.assertionFailed b.account b.amount held excess] ∧
          s.problemsIn rules entries d = .exact (s.useProblems b.account d.date ++
            [.assertionFailed b.account b.amount held' excess'])) := by
  obtain ⟨held', found', hheld', hfound'⟩ := hexact entries hperm
  obtain ⟨held, found, hheld, hfound⟩ := hexact _ (.refl _)
  rw [← problemsIn_byName, problemsIn_of_sum hbody hopened hheld hfound] at h
  obtain rfl := Option.some.inj h
  have hvalue : held'.value = held.value := by
    rw [Decimal.value_sum hheld', Decimal.value_sum hheld]
    exact ((Holdings.perm_numbersWithin hperm _ _).map Decimal.value).sum_eq
  have hproblems : s.problemsIn rules entries d =
      .exact (s.useProblems b.account d.date ++ found') :=
    problemsIn_of_sum hbody hopened hheld' hfound'
  refine ⟨held, held', hheld, hheld', Decimal.equals_iff.2 hvalue, ?_⟩
  rcases Assertion.problemsFor_alike hvalue hfound hfound' with
    ⟨rfl, rfl⟩ | ⟨excess, excess', hexcess, rfl, rfl⟩
  · rw [List.append_nil] at hproblems ⊢
    exact .inl ⟨rfl, hproblems⟩
  · refine .inr ⟨excess, excess', hexcess, ?_, rfl, hproblems⟩
    rintro rfl
    simpa using Checked.exact.inj (hfound'.symm.trans hfound)

/-- An assertion that fails is on an account that was opened. -/
theorem opened_of_failed (hbody : d.body = .balance b)
    (h : (s.problems rules d).value? = some problems)
    (hfailed : ∃ p ∈ problems, p.code = "E2001") : s.accounts.contains b.account := by
  obtain ⟨p, hp, hcode⟩ := hfailed
  by_contra hopened
  rw [State.problems, hbody] at h
  simp only [State.assertionProblems, hopened] at h
  obtain rfl := Option.some.inj h
  exact code_ne_of_mem_useProblems hp hcode

/-- If an assertion fails, then in any order of the accounts it fails with the sum in that order. -/
theorem problemsIn_of_failed (hexact : s.accounts.contains b.account → s.SumsExactly b)
    (hbody : d.body = .balance b) (h : (s.problems rules d).value? = some problems)
    (hfailed : ∃ p ∈ problems, p.code = "E2001") (hperm : entries.Perm s.holdings.toList) :
    ∃ held excess, Decimal.sum (Holdings.numbersWithin entries b.account b.amount.currency) =
        .exact held ∧
      s.problemsIn rules entries d = .exact (s.useProblems b.account d.date ++
        [.assertionFailed b.account b.amount held excess]) := by
  have hopened := opened_of_failed hbody h hfailed
  obtain ⟨held, held', -, hheld', -, ⟨rfl, -⟩ | ⟨excess, excess', -, -, -, hproblems⟩⟩ :=
    problemsIn_of_opened (hexact hopened) hbody hopened hperm h
  · obtain ⟨p, hp, hcode⟩ := hfailed
    exact absurd hcode (code_ne_of_mem_useProblems hp)
  · exact ⟨held', excess', hheld', hproblems⟩

/-- The sum of an assertion that fails is exact in any order of the numbers. -/
theorem exact_of_failed (hexact : s.accounts.contains b.account → s.SumsExactly b)
    (hbody : d.body = .balance b) (h : (s.problems rules d).value? = some problems)
    (hfailed : ∃ p ∈ problems, p.code = "E2001") :
    ∀ l, l.Perm (s.numbersOf b) → ∃ held, Decimal.sum l = .exact held := by
  intro l hl
  obtain ⟨entries, hentries, rfl⟩ := Holdings.exists_perm_numbersWithin hl
  obtain ⟨held, excess, hheld, -⟩ := problemsIn_of_failed hexact hbody h hfailed hentries
  exact ⟨held, hheld⟩

/-- In any order an assertion has the same problems, up to the places of the numbers, and with the
same places unless it fails and the order matters to the sum. -/
theorem problemsIn_balance (hz : s.holdings.HasNoZeros) (hbody : d.body = .balance b)
    (hexact : s.accounts.contains b.account → s.SumsExactly b)
    (hperm : entries.Perm s.holdings.toList) (h : (s.problems rules d).value? = some problems) :
    ∃ problems', (s.problemsIn rules entries d).value? = some problems' ∧
      List.Forall₂ Problem.Alike problems' problems ∧
      (((∃ p ∈ problems, p.code = "E2001") → ¬Decimal.OrderMatters (s.numbersOf b)) →
        problems' = problems) := by
  by_cases hopened : s.accounts.contains b.account
  · obtain ⟨held, held', hheld, hheld', hequal, ⟨rfl, hproblems⟩ |
        ⟨excess, excess', hexcess, hsameExcess, rfl, hproblems⟩⟩ :=
      problemsIn_of_opened (hexact hopened) hbody hopened hperm h
    · exact ⟨_, congrArg _ hproblems, List.forall₂_same.2 fun p _ => .refl p, fun _ => rfl⟩
    · refine ⟨_, congrArg _ hproblems, List.rel_append (List.forall₂_same.2 fun p _ => .refl p)
        (.cons (.assertionFailed _ _ hequal hexcess) .nil), ?_⟩
      intro hmatters
      have hfailed : ∃ p ∈ s.useProblems b.account d.date ++
          [.assertionFailed b.account b.amount held excess], p.code = "E2001" :=
        ⟨_, List.mem_append_right _ List.mem_cons_self, rfl⟩
      have hsame := (Decimal.sum_perm_iff (Holdings.tidy_numbersWithin hz (.refl _) _ _)
        (exact_of_failed hexact hbody h hfailed)).2 (hmatters hfailed)
      have hsum := hsame _ (Holdings.perm_numbersWithin hperm _ _)
      obtain rfl : held' = held := Checked.exact.inj (hheld'.symm.trans (hsum.trans hheld))
      rw [hsameExcess rfl]
  · refine ⟨problems, ?_, List.forall₂_same.2 fun p _ => .refl p, fun _ => rfl⟩
    rw [problemsIn_of_unopened hbody hopened, h]

/-! ## Runs -/

/-- At every assertion on an account that was opened, what is held is summed exactly in any
order. -/
def SumsExactly (rules : Rules) (l : List Directive) : Prop :=
  ∀ (before : List Directive) (d : Directive) (after : List Directive) (b : Assertion) (s : State)
    (vs : List Violation), Directive.byDate l = before ++ d :: after → d.body = .balance b →
    (run rules before).value? = some (s, vs) → s.accounts.contains b.account → s.SumsExactly b

theorem step_eq_some {s' : State} {vs vs' : List Violation} :
    (step rules (s, vs) d).value? = some (s', vs') ↔ ∃ problems,
      (s.problems rules d).value? = some problems ∧ (s.next d).value? = some s' ∧
      vs' = vs ++ problems.map (⟨·, d.date, d.location?⟩) := by
  simp only [step, Checked.value?_bind, Option.bind_eq_some_iff, Checked.pure_eq,
    Checked.value?_exact, Option.some_inj, Prod.mk.injEq]
  constructor
  · rintro ⟨problems, hproblems, next, hnext, rfl, rfl⟩
    exact ⟨problems, hproblems, hnext, rfl⟩
  · rintro ⟨problems, hproblems, hnext, rfl⟩
    exact ⟨problems, hproblems, s', hnext, rfl, rfl⟩

theorem stepIn_eq_some {o : Arrangement} {seen seen' : List Directive} {s' : State}
    {vs vs' : List Violation} :
    (stepIn o rules (seen, s, vs) d).value? = some (seen', s', vs') ↔ ∃ problems,
      (s.problemsIn rules (o.entries seen s.holdings) d).value? = some problems ∧
      (s.next d).value? = some s' ∧ seen' = seen ++ [d] ∧
      vs' = vs ++ problems.map (⟨·, d.date, d.location?⟩) := by
  simp only [stepIn, Checked.value?_bind, Option.bind_eq_some_iff, Checked.pure_eq,
    Checked.value?_exact, Option.some_inj, Prod.mk.injEq]
  constructor
  · rintro ⟨problems, hproblems, next, hnext, rfl, rfl, rfl⟩
    exact ⟨problems, hproblems, hnext, rfl, rfl⟩
  · rintro ⟨problems, hproblems, hnext, rfl, rfl⟩
    exact ⟨problems, hproblems, s', hnext, rfl, rfl, rfl⟩

/-- Runs whose steps have related problems have related problems, and the same state. -/
theorem runIn_related {R : Problem → Problem → Prop} {o : Arrangement}
    (h : (run rules l).value? = some (s, vs))
    (hstep : ∀ before d after t earlier problems, l = before ++ d :: after →
      (run rules before).value? = some (t, earlier) → (t.problems rules d).value? = some problems →
      ∃ problems', (t.problemsIn rules (o.entries before t.holdings) d).value? = some problems' ∧
        List.Forall₂ R problems' problems) :
    ∃ vs', (runIn o rules l).value? = some (l, s, vs') ∧
      List.Forall₂ (Violation.Related R) vs' vs := by
  induction l using List.reverseRecOn generalizing s vs with
  | nil =>
    obtain ⟨rfl, rfl⟩ := Prod.mk.inj (Option.some.inj h)
    exact ⟨[], rfl, .nil⟩
  | append_singleton l d ih =>
    rw [run, List.foldlM_append, Checked.value?_bind, Option.bind_eq_some_iff] at h
    obtain ⟨⟨t, earlier⟩, hrun, h⟩ := h
    simp only [List.foldlM_cons, List.foldlM_nil, bind_pure, step_eq_some] at h
    obtain ⟨problems, hproblems, hnext, rfl⟩ := h
    obtain ⟨earlier', hrun', hearlier⟩ := ih hrun fun before e after t vs problems hl =>
      hstep before e (after ++ [d]) t vs problems (by rw [hl]; simp)
    obtain ⟨problems', hproblems', hrelated⟩ :=
      hstep l d [] t earlier problems rfl hrun hproblems
    refine ⟨earlier' ++ problems'.map (⟨·, d.date, d.location?⟩), ?_, ?_⟩
    · rw [runIn, List.foldlM_append, Checked.value?_bind, Option.bind_eq_some_iff]
      refine ⟨(l, t, earlier'), hrun', ?_⟩
      simp only [List.foldlM_cons, List.foldlM_nil, bind_pure]
      exact stepIn_eq_some.2 ⟨problems', hproblems', hnext, rfl, rfl⟩
    · refine List.rel_append hearlier ?_
      rw [List.forall₂_map_left_iff, List.forall₂_map_right_iff]
      exact hrelated.imp fun p p' hp => ⟨hp, rfl, rfl⟩

/-- With the accounts in any order, a run has the same state, and alike problems. -/
theorem runIn_alike {o : Arrangement} {before rest : List Directive}
    (hexact : SumsExactly rules l) (hl : Directive.byDate l = before ++ rest)
    (h : (run rules before).value? = some (s, vs)) :
    ∃ vs', (runIn o rules before).value? = some (before, s, vs') ∧
      List.Forall₂ (Violation.Related Problem.Alike) vs' vs := by
  refine runIn_related h fun seen d after t earlier problems hbefore hrun hproblems => ?_
  by_cases hbody : ∃ b, d.body = .balance b
  · obtain ⟨b, hbody⟩ := hbody
    have hsplit : Directive.byDate l = seen ++ d :: (after ++ rest) := by rw [hl, hbefore]; simp
    obtain ⟨problems', hproblems', halike, -⟩ :=
      problemsIn_balance (hasNoZeros_run (Checked.gives_false.2 hrun)) hbody
        (hexact _ _ _ b _ _ hsplit hbody hrun) (o.perm seen t.holdings) hproblems
    exact ⟨problems', hproblems', halike⟩
  · refine ⟨problems, ?_, List.forall₂_same.2 fun p _ => .refl p⟩
    rw [problemsIn_of_not_balance (not_exists.1 hbody), hproblems]

/-- What was reported stays reported, in any order. -/
theorem violations_prefix_in {o : Arrangement} {seen seen' : List Directive} {s' : State}
    {vs' : List Violation}
    (h : (l.foldlM (stepIn o rules) (seen, s, vs)).value? = some (seen', s', vs')) :
    vs <+: vs' := by
  refine Checked.foldlM_invariant
    (fun _ (after : List Directive × State × List Violation) => vs <+: after.2.2)
    (List.prefix_refl vs) ?_ (Checked.gives_false.2 h)
  rintro _ ⟨seen₁, s₁, vs₁⟩ d ⟨seen₂, s₂, vs₂⟩ hprefix hstep
  obtain ⟨problems, -, -, -, rfl⟩ := stepIn_eq_some.1 (Checked.gives_false.1 hstep)
  exact hprefix.trans (List.prefix_append _ _)

/-- What is reported in some order, split at a directive. -/
theorem validateIn_split {o : Arrangement} {before after : List Directive}
    {earlier violations : List Violation} (hl : Directive.byDate l = before ++ d :: after)
    (hrun : (runIn o rules before).value? = some (before, s, earlier))
    (h : (validateIn o rules l).value? = some violations) :
    ∃ problems later,
      (s.problemsIn rules (o.entries before s.holdings) d).value? = some problems ∧
      violations = earlier ++ (problems.map (⟨·, d.date, d.location?⟩) ++ later) := by
  rw [validateIn, Checked.value?_bind, Option.bind_eq_some_iff] at h
  obtain ⟨⟨seen, last, violations'⟩, hall, h⟩ := h
  obtain rfl := Option.some.inj h
  rw [hl, runIn, List.foldlM_append, Checked.value?_bind, Option.bind_eq_some_iff] at hall
  obtain ⟨middle, hmiddle, hall⟩ := hall
  obtain rfl : (before, s, earlier) = middle := Option.some.inj (hrun.symm.trans hmiddle)
  rw [List.foldlM_cons, Checked.value?_bind, Option.bind_eq_some_iff] at hall
  obtain ⟨⟨seen', next, found⟩, hd, hall⟩ := hall
  obtain ⟨problems, hproblems, -, -, rfl⟩ := stepIn_eq_some.1 hd
  obtain ⟨later, rfl⟩ := violations_prefix_in hall
  exact ⟨problems, later, hproblems, List.append_assoc _ _ _⟩

/-- In an order that is given for an assertion that fails, the report has the sum in that order in
its place. -/
theorem validateIn_after {before after : List Directive} {earlier : List Violation}
    {violations' : List Violation} (hexact : SumsExactly rules l)
    (hl : Directive.byDate l = before ++ d :: after) (hbody : d.body = .balance b)
    (hrun : (run rules before).value? = some (s, earlier))
    (hproblems : (s.problems rules d).value? = some problems)
    (hfailed : ∃ p ∈ problems, p.code = "E2001") (hperm : entries.Perm s.holdings.toList)
    (h : (validateIn (.after before entries) rules l).value? = some violations') :
    ∃ earlier' held excess later, earlier'.length = earlier.length ∧
      Decimal.sum (Holdings.numbersWithin entries b.account b.amount.currency) = .exact held ∧
      violations' = earlier' ++ ((s.useProblems b.account d.date ++
        [Problem.assertionFailed b.account b.amount held excess]).map
          (⟨·, d.date, d.location?⟩) ++ later) := by
  obtain ⟨earlier', hrun', halike⟩ :=
    runIn_alike (o := .after before entries) hexact hl hrun
  obtain ⟨problems', later, hproblems', rfl⟩ := validateIn_split hl hrun' h
  have hentries : (Arrangement.after before entries).entries before s.holdings = entries :=
    if_pos ⟨rfl, hperm⟩
  obtain ⟨held, excess, hheld, hfound⟩ := problemsIn_of_failed
    (hexact before d after b s earlier hl hbody hrun) hbody hproblems hfailed hperm
  rw [hentries, hfound] at hproblems'
  obtain rfl := Option.some.inj hproblems'
  exact ⟨earlier', held, excess, later, halike.length_eq, hheld, rfl⟩

/-- What is told of one part is the same if all is, and what comes before and the part have the same
lengths. -/
theorem told_eq_of_append {earlier₁ earlier₂ part₁ part₂ later₁ later₂ : List Violation}
    (hearlier : earlier₁.length = earlier₂.length) (hpart : part₁.length = part₂.length)
    (h : (earlier₁ ++ (part₁ ++ later₁)).map Violation.told =
      (earlier₂ ++ (part₂ ++ later₂)).map Violation.told) :
    part₁.map Violation.told = part₂.map Violation.told := by
  simp only [List.map_append] at h
  obtain ⟨-, h⟩ := List.append_inj h (by simpa using hearlier)
  exact (List.append_inj h (by simpa using hpart)).1

end Validation

/-! ## Ledgers -/

/-- In the order of the names, this is how directives are validated. -/
theorem validateIn_byName (rules : Rules) (l : List Directive) :
    validateIn .byName rules l = validate rules l := by
  have hrun : ∀ (l seen : List Directive) (before : State × List Violation),
      l.foldlM (stepIn .byName rules) (seen, before) =
        l.foldlM (step rules) before >>= fun after => pure (seen ++ l, after) := by
    intro l
    induction l with
    | nil => simp
    | cons d l ih =>
      rintro seen ⟨s, vs⟩
      have hstep : stepIn .byName rules (seen, s, vs) d =
          step rules (s, vs) d >>= fun after => pure (seen ++ [d], after) := by
        rw [stepIn, step]
        simp only [Arrangement.byName, problemsIn_byName, bind_assoc, pure_bind]
      rw [List.foldlM_cons, List.foldlM_cons, hstep]
      simp [ih, bind_assoc]
  rw [validateIn, validate_eq_run, runIn, hrun, Validation.run]
  simp [map_eq_pure_bind]

section Report

variable {rules : Rules} {l before after : List Directive} {d : Directive} {b : Assertion}
variable {s : State} {earlier violations : List Violation} {problems : List Problem}

/-- A report is what a run finds. -/
theorem exists_run_of_validate (h : (validate rules l).value? = some violations) :
    ∃ last, (Validation.run rules (Directive.byDate l)).value? = some (last, violations) := by
  rw [validate_eq_run, map_eq_pure_bind, Checked.value?_bind, Option.bind_eq_some_iff] at h
  obtain ⟨⟨last, violations'⟩, hrun, h⟩ := h
  obtain rfl := Option.some.inj h
  exact ⟨last, hrun⟩

theorem validateIn_of_runIn {o : Arrangement} {last : State}
    (h : (runIn o rules (Directive.byDate l)).value? =
      some (Directive.byDate l, last, violations)) :
    (validateIn o rules l).value? = some violations := by
  rw [validateIn, Checked.value?_bind, h]
  rfl

/-- In any order the same problems are found, alike up to the places of numbers. -/
theorem validateIn_alike (h : (validate rules l).value? = some violations)
    (hexact : SumsExactly rules l) (o : Arrangement) :
    ∃ violations', (validateIn o rules l).value? = some violations' ∧
      List.Forall₂ (Violation.Related Problem.Alike) violations' violations := by
  obtain ⟨last, hrun⟩ := exists_run_of_validate h
  obtain ⟨violations', hrun', halike⟩ :=
    runIn_alike (o := o) hexact (List.append_nil _).symm hrun
  exact ⟨violations', validateIn_of_runIn hrun', halike⟩

/-- If the same is told in any two orders that are given for an assertion that fails, the order does
not matter to what it sums. -/
theorem not_orderMatters_of_told (h : (validate rules l).value? = some violations)
    (hexact : SumsExactly rules l)
    (hsame : ∀ o o', (validateIn o rules l).value?.map (·.map Violation.told) =
      (validateIn o' rules l).value?.map (·.map Violation.told))
    (hl : Directive.byDate l = before ++ d :: after) (hbody : d.body = .balance b)
    (hrun : (Validation.run rules before).value? = some (s, earlier))
    (hproblems : (s.problems rules d).value? = some problems)
    (hfailed : ∃ p ∈ problems, p.code = "E2001") :
    ¬Decimal.OrderMatters (s.numbersOf b) := by
  intro hmatters
  -- Two orders of the accounts give sums with different places, so they tell different messages.
  have hz := hasNoZeros_run (Checked.gives_false.2 hrun)
  obtain ⟨l₁, l₂, c₁, c₂, hl₁, hl₂, hc₁, hc₂, hlt⟩ := hmatters.exists_sums
    (Holdings.tidy_numbersWithin hz (.refl _) _ _)
    (exact_of_failed (hexact before d after b s earlier hl hbody hrun) hbody hproblems hfailed)
  obtain ⟨entries₁, hentries₁, rfl⟩ := Holdings.exists_perm_numbersWithin hl₁
  obtain ⟨entries₂, hentries₂, rfl⟩ := Holdings.exists_perm_numbersWithin hl₂
  obtain ⟨vs₁, hvs₁, -⟩ := validateIn_alike h hexact (.after before entries₁)
  obtain ⟨vs₂, hvs₂, -⟩ := validateIn_alike h hexact (.after before entries₂)
  have htold := hsame (.after before entries₁) (.after before entries₂)
  rw [hvs₁, hvs₂, Option.map_some, Option.map_some, Option.some_inj] at htold
  obtain ⟨earlier₁, held₁, excess₁, later₁, hlength₁, hheld₁, rfl⟩ :=
    validateIn_after hexact hl hbody hrun hproblems hfailed hentries₁ hvs₁
  obtain ⟨earlier₂, held₂, excess₂, later₂, hlength₂, hheld₂, rfl⟩ :=
    validateIn_after hexact hl hbody hrun hproblems hfailed hentries₂ hvs₂
  obtain rfl : c₁ = held₁ := Checked.exact.inj (hc₁.symm.trans hheld₁)
  obtain rfl : c₂ = held₂ := Checked.exact.inj (hc₂.symm.trans hheld₂)
  have hpart := told_eq_of_append (hlength₁.trans hlength₂.symm) (by simp) htold
  simp only [List.map_append, List.map_cons, List.map_nil, List.append_cancel_left_eq,
    List.cons.injEq, and_true, Violation.told, Prod.mk.injEq] at hpart
  have hscale := Problem.scale_of_message hpart.2
  omega

/-- If the order does not matter to what any failing assertion sums, the report is the same in any
order. -/
theorem validateIn_eq_of_not_orderMatters (h : (validate rules l).value? = some violations)
    (hexact : SumsExactly rules l)
    (hmatters : ∀ (before : List Directive) (d : Directive) (after : List Directive)
      (b : Assertion) (s : State) (earlier : List Violation) (problems : List Problem),
      Directive.byDate l = before ++ d :: after → d.body = .balance b →
      (Validation.run rules before).value? = some (s, earlier) →
      (s.problems rules d).value? = some problems → (∃ p ∈ problems, p.code = "E2001") →
      ¬Decimal.OrderMatters (s.numbersOf b)) (o : Arrangement) :
    (validateIn o rules l).value? = some violations := by
  obtain ⟨last, hrun⟩ := exists_run_of_validate h
  obtain ⟨violations', hrun', hrelated⟩ := runIn_related (R := Eq) (o := o) hrun (by
    intro before d after t earlier problems hl hbefore hproblems
    refine ⟨problems, ?_, List.forall₂_same.2 fun p _ => rfl⟩
    by_cases hbody : ∃ b, d.body = .balance b
    · obtain ⟨b, hbody⟩ := hbody
      obtain ⟨problems', hproblems', -, hsame⟩ :=
        problemsIn_balance (hasNoZeros_run (Checked.gives_false.2 hbefore)) hbody
          (hexact before d after b t earlier hl hbody hbefore) (o.perm before t.holdings)
          hproblems
      rw [← hsame (hmatters before d after b t earlier problems hl hbody hbefore hproblems)]
      exact hproblems'
    · rw [problemsIn_of_not_balance (not_exists.1 hbody), hproblems])
  rw [validateIn_of_runIn hrun', Violation.eq_of_related hrelated]

end Report

/-- Whether the report depends on the order of the accounts. As long as no sum at an assertion
rounds or overflows, in any order the same problems are found at the same places, and alike up to
the places of the numbers that assertions show. All that is told is the same in any order exactly
if, wherever an assertion fails, the order does not matter to what it sums. -/
theorem validateIn_same_iff {rules : Rules} {l : List Directive} {violations : List Violation}
    (h : (validate rules l).value? = some violations) (hexact : SumsExactly rules l) :
    (∀ o, ∃ violations', (validateIn o rules l).value? = some violations' ∧
      List.Forall₂ (Violation.Related Problem.Alike) violations' violations) ∧
    ((∀ o o', (validateIn o rules l).value?.map (·.map Violation.told) =
        (validateIn o' rules l).value?.map (·.map Violation.told)) ↔
      ∀ (before : List Directive) (d : Directive) (after : List Directive) (b : Assertion)
        (s : State) (earlier : List Violation) (problems : List Problem),
        Directive.byDate l = before ++ d :: after → d.body = .balance b →
        (Validation.run rules before).value? = some (s, earlier) →
        (s.problems rules d).value? = some problems → (∃ p ∈ problems, p.code = "E2001") →
        ¬Decimal.OrderMatters (s.numbersOf b)) := by
  refine ⟨validateIn_alike h hexact, ?_, ?_⟩
  · intro hsame before d after b s earlier problems hl hbody hbefore hproblems hfailed
    exact not_orderMatters_of_told h hexact hsame hl hbody hbefore hproblems hfailed
  · intro hmatters o o'
    rw [validateIn_eq_of_not_orderMatters h hexact hmatters o,
      validateIn_eq_of_not_orderMatters h hexact hmatters o']

/-- Half a dollar comes and goes, and a whole one stays, in three accounts below one. -/
def smallChange : List Directive := [opening, payment, assertion]
where
  opening : Directive := (Directive.Body.opening "Assets:Bank" [] none).on 0
  half : Decimal := { negative := false, coefficient := 50, scale := 2 }
  payment : Directive :=
    (Directive.Body.transaction {
      postings := [
        .plain "Assets:Bank:A" half "USD",
        .plain "Assets:Bank:B" half.neg "USD",
        .plain "Assets:Bank:C" .one "USD"] }).on 1
  asserted : Assertion := ⟨"Assets:Bank", ⟨.ofNat 3, "USD"⟩, none⟩
  assertion : Directive := (Directive.Body.balance asserted).on 2

theorem validateIn_same_iff_smallChange :
    (∃ violations, (validate {} smallChange).value? = some violations) ∧
    SumsExactly {} smallChange ∧
    ¬∀ o o', (validateIn o {} smallChange).value?.map (·.map Violation.told) =
      (validateIn o' {} smallChange).value?.map (·.map Violation.told) := by
  have hdates : Directive.byDate smallChange = smallChange :=
    Directive.byDate_of_pairwise (by decide +kernel)
  obtain ⟨violations, hviolations⟩ :
      ∃ violations, validate {} smallChange = .exact violations := by
    rw [validate_eq_run, hdates]
    decide +kernel
  obtain ⟨⟨s, earlier⟩, hrun, hnumbers, ⟨problems, hproblems, hfailed⟩, hsums⟩ :
      ∃ r : State × List Violation,
      run {} [smallChange.opening, smallChange.payment] = .exact r ∧
      r.1.numbersOf smallChange.asserted =
        [smallChange.half, smallChange.half.neg, .one] ∧
      (∃ problems, r.1.problems {} smallChange.assertion = .exact problems ∧
        ∃ p ∈ problems, p.code = "E2001") ∧
      ∀ entries ∈ r.1.holdings.toList.permutations', ∃ held,
        Decimal.sum (Holdings.numbersWithin entries "Assets:Bank" "USD") = .exact held ∧
        ∃ found, smallChange.asserted.problemsFor held = .exact found := by
    decide +kernel
  have hexact : SumsExactly {} smallChange := by
    intro before d after b t vs hl hbody ht _ entries hentries
    rw [hdates] at hl
    obtain ⟨rfl, rfl⟩ : before = [smallChange.opening, smallChange.payment] ∧
        b = smallChange.asserted := by
      rcases before with _ | ⟨x, _ | ⟨y, _ | ⟨z, before⟩⟩⟩ <;>
        simp only [smallChange, List.cons_append, List.nil_append, List.cons.injEq] at hl
      · obtain ⟨rfl, -⟩ := hl
        cases hbody
      · obtain ⟨rfl, rfl, -⟩ := hl
        cases hbody
      · obtain ⟨rfl, rfl, rfl, -⟩ := hl
        cases hbody
        exact ⟨rfl, rfl⟩
      · simp at hl
    obtain ⟨rfl, -⟩ := Prod.mk.inj (Option.some.inj (ht.symm.trans (congrArg _ hrun)))
    obtain ⟨held, hheld, found, hfound⟩ := hsums entries (List.mem_permutations'.2 hentries)
    exact ⟨held, found, hheld, hfound⟩
  have hmatters : Decimal.OrderMatters (s.numbersOf smallChange.asserted) := by
    rw [hnumbers]
    refine ⟨2, [smallChange.half, smallChange.half.neg], [.one], .refl _, by simp, ?_, ?_, ?_, ?_⟩
    · exact ⟨smallChange.half, by simp, le_rfl⟩
    · simp [Decimal.one]
    · have hone : Decimal.one.value = 1 := by simp [Decimal.value, Decimal.signed, Decimal.one]
      norm_num [Decimal.HasRoom, hone, Decimal.limit]
    · left
      simp
  have hviolations' : (validate {} smallChange).value? = some violations := by rw [hviolations]; rfl
  refine ⟨⟨violations, hviolations'⟩, hexact, fun hsame => ?_⟩
  exact (validateIn_same_iff hviolations' hexact).2.1 hsame
    [smallChange.opening, smallChange.payment] smallChange.assertion [] _ s earlier problems
    hdates rfl (congrArg _ hrun) (congrArg _ hproblems) hfailed hmatters

/-- Twelve accounts below one: six hold whole dollars, and six hold cents that cancel. -/
def roundDollars : List Directive :=
  (accounts.map fun e => (Directive.Body.opening e.1 [] none).on 0) ++ [payment, assertion]
where
  accounts : List (Account × Decimal) :=
    [("Assets:Bank", .zero), ("Equity:Opening", .written "-63.00"),
      ("Assets:Bank:A", .ofNat 1), ("Assets:Bank:B", .ofNat 2), ("Assets:Bank:C", .ofNat 4),
      ("Assets:Bank:D", .ofNat 8), ("Assets:Bank:E", .ofNat 16), ("Assets:Bank:F", .ofNat 32),
      ("Assets:Bank:G", .written "0.01"), ("Assets:Bank:H", .written "0.02"),
      ("Assets:Bank:I", .written "0.04"), ("Assets:Bank:J", .written "0.08"),
      ("Assets:Bank:K", .written "0.16"), ("Assets:Bank:L", .written "-0.31")]
  payment : Directive :=
    (Directive.Body.transaction {
      postings := accounts.tail.map fun e => .plain e.1 e.2 "USD" }).on 1
  assertion : Directive :=
    (Directive.Body.balance ⟨"Assets:Bank", ⟨.ofNat 60, "USD"⟩, none⟩).on 2

/-- Nothing rounds in either order of the names, but the messages differ. -/
theorem told_roundDollars :
    ∃ violations violations',
      validateIn .byName {} roundDollars = .exact violations ∧
      validateIn .byNameReversed {} roundDollars = .exact violations' ∧
      violations.map (·.problem.message) =
        ["Balance failed for 'Assets:Bank': expected 60 USD != accumulated 63.00 USD " ++
          "(3.00 too much)"] ∧
      violations'.map (·.problem.message) =
        ["Balance failed for 'Assets:Bank': expected 60 USD != accumulated 63 USD " ++
          "(3 too much)"] := by
  have hdates : Directive.byDate roundDollars = roundDollars :=
    Directive.byDate_of_pairwise (by decide +kernel)
  obtain ⟨violations, h, htold⟩ : ∃ violations,
      validateIn .byName {} roundDollars = .exact violations ∧
      violations.map (·.problem.message) =
        ["Balance failed for 'Assets:Bank': expected 60 USD != accumulated 63.00 USD " ++
          "(3.00 too much)"] := by
    rw [validateIn, hdates]
    decide +kernel
  obtain ⟨violations', h', htold'⟩ : ∃ violations,
      validateIn .byNameReversed {} roundDollars = .exact violations ∧
      violations.map (·.problem.message) =
        ["Balance failed for 'Assets:Bank': expected 60 USD != accumulated 63 USD " ++
          "(3 too much)"] := by
    rw [validateIn, hdates]
    decide +kernel
  exact ⟨violations, violations', h, h', htold, htold'⟩

end DoubleEntry
