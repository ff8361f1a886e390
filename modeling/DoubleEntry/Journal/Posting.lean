import DoubleEntry.Journal.Value
import DoubleEntry.Transaction

/-!
# Postings in ledger text

* `Line.cost`: a cost in braces, its components in any order and separated by commas, or not.
* `Line.posting`: a flag, an account, units, a cost and a price, all but the account optional.
-/

namespace DoubleEntry.Line

/-- Reads the components of a cost and the closing brace. In double braces a number is the total
cost, in single ones the cost of one unit; after `#` it is the total in either. Of two components of
one kind the later one counts. -/
def costComponents (double : Bool) (cost : Cost) (l : Line) : Reading (Cost × Line) :=
  match h : l.tokens with
  | [] => throw (l.unexpected .costComponent)
  | t :: ts =>
    have := size_withTokens_lt h
    if t.kind = (if double then .doubleRightBrace else .rightBrace) then
      return (cost, l.withTokens ts)
    else if l.startsExpression then do
      let (n, ⟨rest, _⟩) ← l.expression
      let cost := if double then { cost with total := some n } else { cost with perUnit := some n }
      rest.costComponents double cost
    else
      match t.kind with
      | .comma | .star => (l.withTokens ts).costComponents double cost
      | .hash => do
        let (n, ⟨rest, _⟩) ← (l.withTokens ts).expression
        rest.costComponents double { cost with total := some n }
      | .currency =>
        (l.withTokens ts).costComponents double { cost with currency := some t.text }
      | .date => do
        let d ← dateValue t
        (l.withTokens ts).costComponents double { cost with date := some d }
      | .string =>
        (l.withTokens ts).costComponents double { cost with label := some (stringValue t) }
      | _ => throw (l.unexpected .costComponent)
termination_by l.size
decreasing_by all_goals omega

/-- Reads a cost, if one starts here. -/
def cost? (l : Line) : Reading (Option Cost × Line) := do
  match l.nextKind? with
  | some .leftBrace =>
    let (c, rest) ← (l.withTokens l.tokens.tail).costComponents false {}
    return (some c, rest)
  | some .doubleLeftBrace =>
    let (c, rest) ← (l.withTokens l.tokens.tail).costComponents true {}
    return (some c, rest)
  | _ => return (none, l)

/-- Reads a price, if one starts here. -/
def price? (l : Line) : Reading (Option Price × Line) := do
  match l.nextKind? with
  | some .at =>
    let (a, rest) ← (l.withTokens l.tokens.tail).amount
    return (some (.unit a), rest)
  | some .doubleAt =>
    let (a, rest) ← (l.withTokens l.tokens.tail).amount
    return (some (.total a), rest)
  | _ => return (none, l)

/-- Reads units, of which the number, the currency or both may be missing. -/
def units? (l : Line) : Reading (Option Units × Line) := do
  if l.startsExpression then
    let (number, rest) ← l.expression
    if rest.val.nextKind? = some .currency then
      let (currency, rest) ← rest.val.currency
      return (some (.complete ⟨number, currency⟩), rest)
    else return (some (.numberOnly number), rest)
  else if l.nextKind? = some .currency then
    let (currency, rest) ← l.currency
    return (some (.currencyOnly currency), rest)
  else return (none, l)

/-- The flag that a token writes. -/
def flagValue (t : Token) : Char :=
  match t.kind with
  | .pending => Flag.warning
  | .flag => t.text.toList.headD Flag.okay
  | _ => Flag.okay

/-- Reads the flag of a posting, if there is one. -/
def postingFlag? (l : Line) : Option Char × Line :=
  match l.tokens with
  | t :: ts => if t.isPostingFlag then (some (flagValue t), l.withTokens ts) else (none, l)
  | [] => (none, l)

/-- Reads a posting, to the end of the line. It carries the line on which it starts. -/
def posting (l : Line) : Reading Posting := do
  let (flag, rest) := l.postingFlag?
  let (account, rest) ← rest.account
  let (units, rest) ← rest.units?
  let (cost, rest) ← rest.cost?
  let (price, rest) ← rest.price?
  rest.finish
  let line := l.tokens.head?.elim 0 (·.line)
  return { account, units, cost, price, flag, metadata := ({} : Metadata).setLine line }

end DoubleEntry.Line
