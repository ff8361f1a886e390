import DoubleEntry.Decimal.Basic
import DoubleEntry.Journal.SyntaxError
import DoubleEntry.Date

/-!
# Lines

Ledger text is read line by line. A `Line` holds the tokens of a line that are still to be read;
reading something from it gives the line without the tokens of that thing.

* `Line.ofTokens`: the lines of a token list.
* `Reading`: reading can fail with a syntax error, or with an arithmetic failure.
* `Line.account`, `Line.currency`, `Line.string`, `Line.date`: one token of a kind.
* `Line.finish`: nothing may follow but a comment.
-/

namespace DoubleEntry

/-- The rest of a line. -/
structure Line where
  /-- The blanks in front of the first token, if there are any. -/
  indent : Option Token
  /-- The tokens still to be read, without the line break. -/
  tokens : List Token
  /-- The line break, or the empty range at the end of the last line. -/
  ending : Span
deriving Repr

/-- Reading something, which may be written wrongly. -/
abbrev Reading := ExceptT SyntaxError Checked

namespace Line

/-- Puts a token in front of some lines. A line break ends a line of its own, and any other token
belongs to the first line there is. -/
def prepend (t : Token) (lines : List Line) : List Line :=
  match t.kind, lines with
  | .newline, _ => ⟨none, [], t.span⟩ :: lines
  | .indent, l :: rest => { l with indent := some t } :: rest
  | _, l :: rest => { l with tokens := t :: l.tokens } :: rest
  | _, [] => [⟨none, [t], .empty t.span.stop⟩]

/-- The lines that the tokens stand on. -/
def ofTokens (tokens : List Token) : List Line := tokens.foldr prepend []

/-- The number of tokens still to be read. -/
def size (l : Line) : Nat := l.tokens.length

/-- The line with other tokens to be read. -/
def withTokens (l : Line) (tokens : List Token) : Line := { l with tokens }

@[simp] theorem size_withTokens (l : Line) (ts : List Token) : (l.withTokens ts).size = ts.length :=
  rfl

theorem size_withTokens_lt {l : Line} {t : Token} {ts : List Token} (h : l.tokens = t :: ts) :
    (l.withTokens ts).size < l.size := by
  rw [size, size, h]
  exact Nat.lt_succ_self _

/-- The kind of the next token. -/
def nextKind? (l : Line) : Option Token.Kind := l.tokens.head?.map (·.kind)

/-- Whether nothing follows but a comment. -/
def atEnd (l : Line) : Bool := l.tokens.head?.all Token.endsLine

/-- The place of the next token, or of the end of the line. -/
def here (l : Line) : Span :=
  match l.tokens with
  | t :: _ => t.span
  | [] => l.ending

/-- The error that the next token is not what is asked for. -/
def unexpected (l : Line) (what : Expectation) : SyntaxError :=
  match l.tokens with
  | t :: _ =>
    if t.endsLine then ⟨.unexpectedEnd what, t.span⟩ else ⟨.expected what t.text, t.span⟩
  | [] => ⟨.unexpectedEnd what, l.ending⟩

/-- Reads the end of the line, in front of which a comment may stand. -/
def finish (l : Line) : Reading Unit :=
  let rest : Line :=
    match l.tokens with
    | t :: ts => if t.kind = .comment then l.withTokens ts else l
    | [] => l
  if rest.tokens = [] then return () else throw (rest.unexpected .endOfLine)

/-- Reads a token of a kind. -/
def token (l : Line) (kind : Token.Kind) (what : Expectation) : Reading (Token × Line) :=
  match l.tokens with
  | t :: ts => if t.kind = kind then return (t, l.withTokens ts) else throw (l.unexpected what)
  | [] => throw (l.unexpected what)

/-- Reads an account. -/
def account (l : Line) : Reading (String × Line) := do
  let (t, rest) ← l.token .account .account
  return (t.text, rest)

/-- Reads a currency. -/
def currency (l : Line) : Reading (String × Line) := do
  let (t, rest) ← l.token .currency .currency
  return (t.text, rest)

/-- Takes the backslashes out of the inside of a string: `n` and `t` after one stand for a line feed
and a tab, any other character for itself. -/
def unescape : List Char → List Char
  | [] => []
  | ['\\'] => ['\\']
  | '\\' :: c :: cs =>
    (if c = 'n' then '\n' else if c = 't' then '\t' else c) :: unescape cs
  | c :: cs => c :: unescape cs

/-- The value of a string token: what stands between its quotes. -/
def stringValue (t : Token) : String := String.ofList (unescape t.text.toList.tail.dropLast)

/-- The name in a tag or link token, without its sign. -/
def signedName (t : Token) : String := String.ofList t.text.toList.tail

/-- The key in a metadata key token, without its colon. -/
def keyName (t : Token) : String := String.ofList t.text.toList.dropLast

/-- Reads a string. -/
def string (l : Line) : Reading (String × Line) := do
  let (t, rest) ← l.token .string .string
  return (stringValue t, rest)

/-- The day that a date token names. -/
def dateValue (t : Token) : Reading Date :=
  match Date.ofText? t.text with
  | some d => return d
  | none => throw ⟨.invalidDate t.text, t.span⟩

/-- Reads a date. -/
def date (l : Line) : Reading (Date × Line) := do
  let (t, rest) ← l.token .date .date
  return (← dateValue t, rest)

end Line

end DoubleEntry
