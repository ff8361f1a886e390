import DoubleEntry.Decimal.Arithmetic
import DoubleEntry.Decimal.Text
import DoubleEntry.Journal.Line
import DoubleEntry.Amount

/-!
# Expressions

Numbers may be written as arithmetic expressions. They are evaluated while they are read, from the
left and with the usual precedence:

* `Line.expression`: products with `+` and `-` between them.
* `Line.product`: factors with `*` and `/` between them.
* `Line.factor`: a number, an expression in parentheses, or a factor with a sign.

Each takes at least one token, which its type says: the rest of the line is a `Line.Shorter`.
-/

namespace DoubleEntry.Line

/-- A line with fewer than `n` tokens. -/
abbrev Shorter (n : Nat) := { l : Line // l.size < n }

/-- The number that a number token writes; commas between its digits do not count. -/
def numberValue (t : Token) : Reading Decimal :=
  match Decimal.ofChars? (t.text.toList.filter (· ≠ ',')) with
  | some n => return n
  | none => throw ⟨.invalidNumber t.text, t.span⟩

/-- Whether an expression can start with the next token. -/
def startsExpression (l : Line) : Bool :=
  match l.nextKind? with
  | some .number | some .leftParen | some .minus | some .plus => true
  | _ => false

/-- The quotient of two numbers; a division without a result is an error at its sign. -/
def quotient (a b : Decimal) (sign : Span) : Reading Decimal :=
  match a.div b with
  | .error _ => throw ⟨.noQuotient, sign⟩
  | q => ExceptT.lift q

mutual

/-- Reads a sum of products. -/
def expression (l : Line) : Reading (Decimal × Shorter l.size) := do
  let (value, ⟨rest, _⟩) ← l.product
  let (value, ⟨rest, _⟩) ← rest.moreProducts value
  return (value, ⟨rest, by omega⟩)
termination_by (l.size, 2)

/-- Reads the products after the first, which has the value given. -/
def moreProducts (l : Line) (value : Decimal) : Reading (Decimal × Shorter (l.size + 1)) :=
  match h : l.tokens with
  | [] => return (value, ⟨l, by omega⟩)
  | t :: ts =>
    have := size_withTokens_lt h
    match t.kind with
    | .plus => do
      let (next, ⟨rest, _⟩) ← (l.withTokens ts).product
      let (value, ⟨rest, _⟩) ← rest.moreProducts (← value.add next)
      return (value, ⟨rest, by omega⟩)
    | .minus => do
      let (next, ⟨rest, _⟩) ← (l.withTokens ts).product
      let (value, ⟨rest, _⟩) ← rest.moreProducts (← value.sub next)
      return (value, ⟨rest, by omega⟩)
    | _ => return (value, ⟨l, by omega⟩)
termination_by (l.size, 0)
decreasing_by all_goals simp only [Prod.lex_def]; omega

/-- Reads a product of factors. -/
def product (l : Line) : Reading (Decimal × Shorter l.size) := do
  let (value, ⟨rest, _⟩) ← l.factor
  let (value, ⟨rest, _⟩) ← rest.moreFactors value
  return (value, ⟨rest, by omega⟩)
termination_by (l.size, 1)

/-- Reads the factors after the first, which has the value given. -/
def moreFactors (l : Line) (value : Decimal) : Reading (Decimal × Shorter (l.size + 1)) :=
  match h : l.tokens with
  | [] => return (value, ⟨l, by omega⟩)
  | t :: ts =>
    have := size_withTokens_lt h
    match t.kind with
    | .star => do
      let (next, ⟨rest, _⟩) ← (l.withTokens ts).factor
      let (value, ⟨rest, _⟩) ← rest.moreFactors (← value.mul next)
      return (value, ⟨rest, by omega⟩)
    | .slash => do
      let (next, ⟨rest, _⟩) ← (l.withTokens ts).factor
      let (value, ⟨rest, _⟩) ← rest.moreFactors (← quotient value next t.span)
      return (value, ⟨rest, by omega⟩)
    | _ => return (value, ⟨l, by omega⟩)
termination_by (l.size, 0)
decreasing_by all_goals simp only [Prod.lex_def]; omega

/-- Reads a number, an expression in parentheses, or a factor with a sign. -/
def factor (l : Line) : Reading (Decimal × Shorter l.size) :=
  match h : l.tokens with
  | [] => throw (l.unexpected .number)
  | t :: ts =>
    have first := size_withTokens_lt h
    match t.kind with
    | .number => return (← numberValue t, ⟨l.withTokens ts, first⟩)
    | .leftParen => do
      let (value, ⟨rest, shorter⟩) ← (l.withTokens ts).expression
      match h : rest.tokens with
      | [] => throw (rest.unexpected .closingParen)
      | t :: ts =>
        if t.kind = .rightParen then
          have last := size_withTokens_lt h
          return (value, ⟨rest.withTokens ts, Nat.lt_trans last (Nat.lt_trans shorter first)⟩)
        else throw (rest.unexpected .closingParen)
    | .minus => do
      let (value, ⟨rest, shorter⟩) ← (l.withTokens ts).factor
      return (value.neg, ⟨rest, Nat.lt_trans shorter first⟩)
    | .plus => do
      let (value, ⟨rest, shorter⟩) ← (l.withTokens ts).factor
      return (value, ⟨rest, Nat.lt_trans shorter first⟩)
    | _ => throw (l.unexpected .number)
termination_by (l.size, 0)
decreasing_by all_goals simp only [Prod.lex_def]; omega

end

/-- Reads a number with its currency. -/
def amount (l : Line) : Reading (Amount × Line) := do
  let (number, rest) ← l.expression
  let (currency, rest) ← rest.val.currency
  return (⟨number, currency⟩, rest)

end DoubleEntry.Line
