import DoubleEntry.Journal.Expression
import DoubleEntry.Metadata

/-!
# Metadata in ledger text

* `Line.writtenValue`: one value, which takes at least one token.
* `Line.value`: one value, or the null value if nothing is written.
* `Line.values`: all values up to the end of the line.
* `Line.keyValue`: a key and its value, to the end of the line.
-/

namespace DoubleEntry.Line

/-- Reads a value. A number with a currency after it is an amount. -/
def writtenValue (l : Line) : Reading (MetaValue × Shorter l.size) := do
  if l.startsExpression then
    let (number, ⟨rest, shorter⟩) ← l.expression
    match h : rest.tokens with
    | t :: ts =>
      if t.kind = .currency then
        return (.amount ⟨number, t.text⟩,
          ⟨rest.withTokens ts, Nat.lt_trans (size_withTokens_lt h) shorter⟩)
      else return (.number number, ⟨rest, shorter⟩)
    | [] => return (.number number, ⟨rest, shorter⟩)
  else
    match h : l.tokens with
    | [] => throw (l.unexpected .metadataValue)
    | t :: ts =>
      let rest : Shorter l.size := ⟨l.withTokens ts, size_withTokens_lt h⟩
      match t.kind with
      | .string => return (.string (stringValue t), rest)
      | .account => return (.account t.text, rest)
      | .currency => return (.currency t.text, rest)
      | .tag => return (.tag (signedName t), rest)
      | .link => return (.link (signedName t), rest)
      | .date => return (.date (← dateValue t), rest)
      | .bool b => return (.bool b, rest)
      | .null => return (.null, rest)
      | _ => throw (l.unexpected .metadataValue)

/-- Reads a value, which may be left out. -/
def value (l : Line) : Reading (MetaValue × Line) := do
  if l.atEnd then return (.null, l)
  else
    let (v, rest) ← l.writtenValue
    return (v, rest)

/-- Reads values to the end of the line. -/
def values (l : Line) : Reading (List MetaValue × Line) := do
  if l.atEnd then return ([], l)
  else
    let (v, ⟨rest, _⟩) ← l.writtenValue
    let (vs, rest) ← rest.values
    return (v :: vs, rest)
termination_by l.size

/-- Reads a key. -/
def key (l : Line) : Reading (String × Line) := do
  let (t, rest) ← l.token .metaKey .metadataKey
  return (keyName t, rest)

/-- Reads a key and its value, to the end of the line. -/
def keyValue (l : Line) : Reading (String × MetaValue) := do
  let (k, rest) ← l.key
  let (v, rest) ← rest.value
  rest.finish
  return (k, v)

end DoubleEntry.Line
