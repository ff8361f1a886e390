import DoubleEntry.Directive
import DoubleEntry.Holdings

/-!
# Padding

A pad makes the assertions on its account hold: the first one in each currency after it, until the
next pad of the account. What the account lacks comes from the source account of the pad, by a
transaction on the day of the pad.

* `padding`: the transactions that the pads of a ledger call for, and the pads without use.
* `mergePadding`: the ledger with those transactions in their places.
-/

namespace DoubleEntry

/-- A pad with its date and metadata. -/
structure DatedPad where
  date : Date
  metadata : Metadata
  pad : Pad
deriving DecidableEq, Repr

namespace DatedPad

/-- The message about a pad that no assertion uses. -/
def unusedMessage : String := "Unused Pad entry"

/-- How the narration of every padding transaction starts. -/
def narrationStart : String := "(Padding inserted"

/-- The transaction that brings the difference to the padded account, for an assertion of an
amount. -/
def transaction (p : DatedPad) (asserted difference : Amount) : Directive where
  date := p.date
  metadata := p.metadata
  body := .transaction {
    flag := Flag.padding
    narration := narrationStart ++ s!" for Balance of {asserted} for difference {difference})"
    postings := [
      { account := p.pad.account, units := some (.complete difference),
        flag := some Flag.padding },
      { account := p.pad.source, units := some (.complete difference.neg),
        flag := some Flag.padding }] }

end DatedPad

namespace Padding

/-- A pad that applies, and the currencies in which an assertion has used it. -/
structure Active where
  entry : DatedPad
  used : List Currency := []

/-- How far the directives have been gone through. -/
structure State where
  /-- The units that each account holds. -/
  holdings : Holdings := {}
  /-- The pad that applies to each account. -/
  active : Std.TreeMap Account Active := {}
  /-- The padding transactions so far. -/
  transactions : List Directive := []
  /-- The pads that were replaced before any use. -/
  unused : List DatedPad := []

/-- Lets a pad apply to its account in place of the one before. -/
def State.addPad (s : State) (p : DatedPad) : State :=
  let replaced := (s.active[p.pad.account]?).toList.filter (·.used.isEmpty)
  { s with
    active := s.active.insert p.pad.account ⟨p, []⟩
    unused := s.unused ++ replaced.map (·.entry) }

/-- The pad that an assertion meets: the one that applies to its account, unless an assertion in its
currency has used it before. -/
def State.padFor? (s : State) (b : Assertion) : Option Active :=
  (s.active[b.account]?).filter (b.amount.currency ∉ ·.used)

/-- The number that the account of an assertion itself holds in its currency. -/
def State.held (s : State) (b : Assertion) : Decimal :=
  (s.holdings.inventory b.account).units b.amount.currency

/-- Notes that an assertion has used a pad. -/
def State.use (s : State) (b : Assertion) (pad : Active) : State :=
  { s with
    active := s.active.insert b.account { pad with used := pad.used ++ [b.amount.currency] } }

/-- Lets an assertion use the pad that it meets. What the account lacks is transferred, if that is
more than the tolerance of the assertion. -/
def State.addAssertion (s : State) (b : Assertion) : Checked State :=
  match s.padFor? b with
  | none => return s
  | some pad => do
    let s := s.use b pad
    let difference : Amount := ⟨← b.amount.number.sub (s.held b), b.amount.currency⟩
    let tolerance ← b.effectiveTolerance
    if difference.number.abs ≤ tolerance then return s
    else
      let holdings ← s.holdings.add pad.entry.pad.account difference
      let holdings ← holdings.add pad.entry.pad.source difference.neg
      return { s with
        holdings
        transactions := s.transactions ++ [pad.entry.transaction b.amount difference] }

/-- Goes on by one directive. -/
def State.step (s : State) (d : Directive) : Checked State :=
  match d.body with
  | .transaction t => return { s with holdings := ← s.holdings.addPostings t.postings }
  | .pad p => return s.addPad ⟨d.date, d.metadata, p⟩
  | .balance b => s.addAssertion b
  | _ => return s

/-- The state after some directives, gone through in the order given. -/
def run (directives : List Directive) : Checked State := directives.foldlM State.step {}

/-- All pads without use: those that were replaced, then those that applied to the end, by date. -/
def State.allUnused (s : State) : List DatedPad :=
  let atEnd := (s.active.values.filter (·.used.isEmpty)).map (·.entry)
  s.unused ++ atEnd.mergeSort fun a b => a.date ≤ b.date

end Padding

/-- The padding transactions for the assertions of a ledger, and the pads that none of them uses.
The directives are gone through in the order of their ranks. -/
def padding (directives : List Directive) : Checked (List Directive × List DatedPad) := do
  let s ← Padding.run (Directive.sort directives)
  return (s.transactions, s.allUnused)

/-- Puts the padding transactions in their places. A ledger without any stays as it is. -/
def mergePadding (directives : List Directive) : Checked (List Directive × List DatedPad) := do
  let (transactions, unused) ← padding directives
  if transactions.isEmpty then return (directives, unused)
  else return (Directive.sort (directives ++ transactions), unused)

end DoubleEntry
