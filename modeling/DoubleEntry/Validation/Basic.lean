import Std.Data.TreeSet
import DoubleEntry.Booking.Balance
import DoubleEntry.Files.Path
import DoubleEntry.Holdings
import DoubleEntry.Validation.Problem

/-!
# Validation

Checks the entries of a ledger, with all amounts filled in and all pads applied, in the order of
their dates:

* accounts are opened before they are used and not used after they are closed,
* transactions balance, and are in currencies that the accounts may hold,
* assertions hold, over an account and those below it,
* documents exist.

What a directive breaks (`State.problems`) and what it changes (`State.next`) are told apart: no
problem stops the accounts from moving on. Main definition: `validate`.
-/

namespace DoubleEntry

namespace Validation

/-- How to check the files of documents. -/
structure DocumentRule where
  /-- The directory that relative paths are seen from. -/
  base : Option String
  /-- Whether there is anything at a path. -/
  isPresent : String → Bool

/-- What to check beyond the rules that always hold. -/
structure Rules where
  /-- Whether every currency needs a commodity directive. -/
  requireCommodities : Bool := false
  /-- How to check documents, if at all. -/
  documents : Option DocumentRule := none

/-- The life of an account. -/
structure Lifetime where
  opened : Date
  /-- The day on which the account was closed, if it was. -/
  closed : Option Date := none
  /-- The currencies that the account may hold; all of them if none is listed. -/
  currencies : List Currency := []
deriving DecidableEq, Repr

/-- Whether the account may hold a currency. -/
def Lifetime.admits (life : Lifetime) (currency : Currency) : Bool :=
  life.currencies.isEmpty || life.currencies.contains currency

/-- What the directives so far have brought about. -/
structure State where
  /-- Every account that was opened. -/
  accounts : Std.TreeMap Account Lifetime := {}
  /-- The units that each account holds. -/
  holdings : Holdings := {}
  /-- The currencies that commodity directives name. -/
  commodities : Std.TreeSet Currency := {}

namespace State

/-! ## Problems -/

/-- What is wrong with the use of an account on a day. -/
def useProblems (s : State) (account : Account) (date : Date) : List Problem :=
  match s.accounts[account]? with
  | none => [.unknownAccount account]
  | some life =>
    let early := if date < life.opened then [.usedBeforeOpening account date life.opened] else []
    let late := (life.closed.toList.filter (· < date)).map (.usedAfterClosing account date)
    early ++ late

/-- What is wrong with opening an account. -/
def openingProblems (s : State) (account : Account) : List Problem :=
  match s.accounts[account]? with
  | some life => [.alreadyOpen account life.opened]
  | none => []

/-- What is wrong with closing an account. -/
def closingProblems (s : State) (account : Account) : List Problem :=
  match s.accounts[account]? with
  | some life => if life.closed.isSome then [.alreadyClosed account] else []
  | none => [.closedUnopened account]

/-- What is wrong with the currency of a posting. An unknown account admits every currency. -/
def currencyProblems (s : State) (rules : Rules) (p : Posting) : List Problem :=
  match p.amount? with
  | none => []
  | some units =>
    let currency := units.currency
    let admitted := (s.accounts[p.account]?).all (·.admits currency)
    let declared := !rules.requireCommodities || s.commodities.contains currency
    (if admitted then [] else [.currencyNotAllowed p.account currency]) ++
      (if declared then [] else [.undeclaredCurrency currency])

/-- What is wrong with the postings of one transaction. The use of an account is checked at its
first posting; `seen` are the accounts of the postings before. -/
def postingProblems (s : State) (rules : Rules) (date : Date) (seen : List Account) :
    List Posting → List Problem
  | [] => []
  | p :: rest =>
    let use := if p.account ∈ seen then [] else s.useProblems p.account date
    use ++ s.currencyProblems rules p ++ s.postingProblems rules date (p.account :: seen) rest

/-- The residuals of a transaction that exceed their tolerance. -/
def residualProblems (t : Transaction) : Checked (List Problem) := do
  let tolerances ← t.tolerances
  let residual ← t.residual
  return (residual.exceeding tolerances).map fun (currency, n) => .unbalanced ⟨n, currency⟩

/-- What is wrong with a transaction. -/
def transactionProblems (s : State) (rules : Rules) (date : Date) (t : Transaction) :
    Checked (List Problem) :=
  if t.postings.isEmpty then return [.noPostings]
  else return s.postingProblems rules date [] t.postings ++ (← residualProblems t)

/-- What is wrong with a pad. -/
def padProblems (s : State) (date : Date) (p : Pad) : List Problem :=
  s.useProblems p.account date ++
    (if p.source = p.account then [] else s.useProblems p.source date)

/-- What is wrong with the number that an assertion claims. -/
def heldProblems (s : State) (b : Assertion) : Checked (List Problem) := do
  let held ← s.holdings.subtreeUnits b.account b.amount.currency
  let tolerance ← b.effectiveTolerance
  let excess ← held.sub b.amount.number
  return if excess.abs ≤ tolerance then [] else [.assertionFailed b.account b.amount held excess]

/-- What is wrong with an assertion. On an account that was never opened nothing can be asserted. -/
def assertionProblems (s : State) (date : Date) (b : Assertion) : Checked (List Problem) :=
  let use := s.useProblems b.account date
  if s.accounts.contains b.account then return use ++ (← s.heldProblems b)
  else return use

/-- What is wrong with a document. -/
def documentProblems (s : State) (rules : Rules) (date : Date) (account : Account)
    (path : String) : List Problem :=
  let missing :=
    match rules.documents with
    | none => []
    | some rule =>
      let full := rule.base.elim path (Path.join · path)
      if rule.isPresent full then [] else [.missingDocument full]
  s.useProblems account date ++ missing

/-- What is wrong with a directive. -/
def problems (s : State) (rules : Rules) (d : Directive) : Checked (List Problem) :=
  match d.body with
  | .opening account _ _ => return s.openingProblems account
  | .closing account => return s.closingProblems account
  | .transaction t => s.transactionProblems rules d.date t
  | .balance b => s.assertionProblems d.date b
  | .pad p => return s.padProblems d.date p
  | .document account path => return s.documentProblems rules d.date account path
  | _ => return []

/-! ## Changes -/

/-- Opens an account, unless it was opened before. -/
def opening (s : State) (account : Account) (date : Date) (currencies : List Currency) : State :=
  if s.accounts.contains account then s
  else { s with accounts := s.accounts.insert account { opened := date, currencies } }

/-- Closes an account, unless it was closed before. -/
def closing (s : State) (account : Account) (date : Date) : State :=
  match s.accounts[account]? with
  | some life =>
    if life.closed.isSome then s
    else { s with accounts := s.accounts.insert account { life with closed := some date } }
  | none => s

/-- The state after a directive. -/
def next (s : State) (d : Directive) : Checked State :=
  match d.body with
  | .opening account currencies _ => return s.opening account d.date currencies
  | .closing account => return s.closing account d.date
  | .commodity currency => return { s with commodities := s.commodities.insert currency }
  | .transaction t => return { s with holdings := ← s.holdings.addPostings t.postings }
  | _ => return s

end State

/-- Checks one directive after those before it. -/
def step (rules : Rules) (before : State × List Violation) (d : Directive) :
    Checked (State × List Violation) := do
  let (state, violations) := before
  let problems ← state.problems rules d
  return (← state.next d, violations ++ problems.map (⟨·, d.date, d.location?⟩))

/-- The state after some directives, gone through in the order given, and what is wrong with
them. -/
def run (rules : Rules) (directives : List Directive) : Checked (State × List Violation) :=
  directives.foldlM (step rules) ({}, [])

end Validation

/-- Everything that is wrong with some directives, in the order of their dates. Directives of one
date stay in the order given. -/
def validate (rules : Validation.Rules) (directives : List Directive) : Checked (List Violation) :=
  return (← Validation.run rules (directives.mergeSort fun a b => a.date ≤ b.date)).2

end DoubleEntry
