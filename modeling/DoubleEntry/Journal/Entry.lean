import DoubleEntry.Directive
import DoubleEntry.Journal.Posting

/-!
# Directives in ledger text

A directive starts on a line of its own; the indented lines below it hold its metadata, and the
postings of a transaction.

* `Line.statement`: what follows the keyword of a directive other than a transaction.
* `Draft.readLine`: one indented line of a transaction.
* `Block.directive`: a whole directive, with the lines below that do not belong to it.
-/

namespace DoubleEntry

/-- Tags and metadata that apply to all directives until they are popped, each with the place of its
push, the earliest first. -/
structure Pushed where
  tags : List (String × Span) := []
  metadata : List (String × MetaValue × Span) := []

/-- A line without blanks in front of it, and the indented lines below. -/
structure Block where
  head : Line
  body : List Line

/-- Something read from the text, with the place that it takes. -/
structure Placed (α : Type) where
  value : α
  span : Span
deriving DecidableEq, Repr

namespace Line

/-- The number of bytes in front of the first token. -/
def indentWidth (l : Line) : Nat := l.indent.elim 0 fun t => t.span.stop - t.span.start

/-! ## Simple directives -/

/-- Reads currencies, each after a comma. -/
def moreCurrencies (l : Line) : Reading (List Currency × Line) :=
  match _ : l.tokens with
  | t :: ts =>
    if t.kind = .comma then
      match ts with
      | c :: ts =>
        if c.kind = .currency then do
          let (cs, rest) ← (l.withTokens ts).moreCurrencies
          return (c.text :: cs, rest)
        else throw ((l.withTokens (c :: ts)).unexpected .currency)
      | [] => throw ((l.withTokens []).unexpected .currency)
    else return ([], l)
  | [] => return ([], l)
termination_by l.size
decreasing_by
  have := congrArg List.length ‹l.tokens = _›
  simp only [size, withTokens, List.length_cons] at this ⊢
  omega

/-- Reads currencies with commas between them, if there are any. -/
def currencies (l : Line) : Reading (List Currency × Line) := do
  if l.nextKind? = some .currency then
    let (c, rest) ← l.currency
    let (cs, rest) ← rest.moreCurrencies
    return (c :: cs, rest)
  else return ([], l)

/-- Reads a string, if there is one. -/
def string? (l : Line) : Reading (Option String × Line) := do
  if l.nextKind? = some .string then
    let (s, rest) ← l.string
    return (some s, rest)
  else return (none, l)

/-- Reads the tolerance of a balance assertion, if there is one. -/
def tolerance? (l : Line) : Reading (Option Decimal × Line) := do
  if l.nextKind? = some .tilde then
    let (n, rest) ← (l.withTokens l.tokens.tail).expression
    return (some n, rest)
  else return (none, l)

/-- Reads what follows a keyword that was found at a place. -/
def statement (keyword : Keyword) (place : Span) (l : Line) :
    Reading (Directive.Body × Line) := do
  match keyword with
  | .opening =>
    let (account, l) ← l.account
    let (currencies, l) ← l.currencies
    let (booking, l) ← l.string?
    return (.opening account currencies booking, l)
  | .closing =>
    let (account, l) ← l.account
    return (.closing account, l)
  | .balance =>
    let (account, l) ← l.account
    let (number, l) ← l.expression
    let (tolerance, l) ← l.val.tolerance?
    let (currency, l) ← l.currency
    return (.balance ⟨account, ⟨number, currency⟩, tolerance⟩, l)
  | .pad =>
    let (account, l) ← l.account
    let (source, l) ← l.account
    return (.pad ⟨account, source⟩, l)
  | .commodity =>
    let (currency, l) ← l.currency
    return (.commodity currency, l)
  | .price =>
    let (currency, l) ← l.currency
    let (amount, l) ← l.amount
    return (.price currency amount, l)
  | .note =>
    let (account, l) ← l.account
    let (comment, l) ← l.string
    return (.note account comment, l)
  | .document =>
    let (account, l) ← l.account
    let (path, l) ← l.string
    return (.document account path, l)
  | .event =>
    let (kind, l) ← l.string
    let (value, l) ← l.string
    return (.event kind value, l)
  | .query =>
    let (name, l) ← l.string
    let (query, l) ← l.string
    return (.query name query, l)
  | .custom =>
    let (kind, l) ← l.string
    let (values, l) ← l.values
    return (.custom kind values, l)
  | .txn | .option | .inclusion | .plugin | .pushTag | .popTag | .pushMeta | .popMeta =>
    throw ⟨.missingDirective, place⟩

end Line

/-- Reads the metadata lines at the front. Gives the metadata, the offset at which the last of them
ends, and the lines after them. -/
def readMetadata (m : Metadata) (stop : Nat) :
    List Line → Reading (Metadata × Nat × List Line)
  | [] => return (m, stop, [])
  | l :: rest => do
    if l.nextKind? = some .metaKey then
      let (key, value) ← l.keyValue
      readMetadata (m.insert key value) l.ending.stop rest
    else if l.atEnd then
      l.finish
      readMetadata m l.ending.stop rest
    else return (m, stop, l :: rest)

/-! ## Transactions -/

/-- A transaction of which some lines have been read. -/
structure Draft where
  transaction : Transaction
  metadata : Metadata := {}
  /-- The indentation of the last posting. -/
  postingIndent : Nat := 0

namespace Draft

/-- Adds a tag that the transaction does not have yet. -/
def addTag (d : Draft) (tag : String) : Draft :=
  if tag ∈ d.transaction.tags then d
  else { d with transaction.tags := d.transaction.tags ++ [tag] }

/-- Adds a link that the transaction does not have yet. -/
def addLink (d : Draft) (link : String) : Draft :=
  if link ∈ d.transaction.links then d
  else { d with transaction.links := d.transaction.links ++ [link] }

/-- Whether the token is a tag or a link. -/
def isTagOrLink (t : Token) : Bool :=
  match t.kind with
  | .tag | .link => true
  | _ => false

/-- Reads the tags and links at the front of a line. -/
def readTags (d : Draft) (l : Line) : Draft × Line :=
  let add (d : Draft) (t : Token) : Draft :=
    if t.kind = .tag then d.addTag (Line.signedName t) else d.addLink (Line.signedName t)
  ((l.tokens.takeWhile isTagOrLink).foldl add d, l.withTokens (l.tokens.dropWhile isTagOrLink))

/-- Puts a metadata entry where its indentation says: with the last posting if it stands further in
than that, or else with the transaction. -/
def addMetadata (d : Draft) (indent : Nat) (key : String) (value : MetaValue) : Draft :=
  let postings := d.transaction.postings
  if postings ≠ [] ∧ d.postingIndent < indent then
    let insert (p : Posting) := { p with metadata := p.metadata.insert key value }
    { d with transaction.postings := postings.modify (postings.length - 1) insert }
  else { d with metadata := d.metadata.insert key value }

/-- Reads an indented line: metadata, tags and links, a posting, or nothing but a comment. -/
def readLine (d : Draft) (l : Line) : Reading Draft := do
  match l.tokens with
  | [] => return d
  | t :: _ =>
    if t.endsLine then
      l.finish
      return d
    else if t.kind = .metaKey then
      let (key, value) ← l.keyValue
      return d.addMetadata l.indentWidth key value
    else if isTagOrLink t then
      let (d, rest) := d.readTags l
      rest.finish
      return d
    else if t.isPostingFlag ∨ t.kind = .account then
      let posting ← l.posting
      return { d with
        transaction.postings := d.transaction.postings ++ [posting]
        postingIndent := l.indentWidth }
    else throw (l.unexpected .postingOrMetadata)

/-- Reads the rest of the first line: a payee and a narration, or a narration alone, then tags and
links. -/
def readHead (flag : Char) (l : Line) : Reading Draft := do
  let strings := l.tokens.takeWhile (·.kind = .string)
  let rest := l.withTokens (l.tokens.drop strings.length)
  let (payee, narration) ←
    match strings.map Line.stringValue with
    | [] => pure (none, "")
    | [narration] => pure (none, narration)
    | [payee, narration] => pure (some payee, narration)
    | _ => throw ((l.withTokens (l.tokens.drop 2)).unexpected .tagOrLink)
  let (d, rest) := readTags { transaction := { flag, payee, narration } } rest
  rest.finish
  return d

/-- Reads a transaction from the rest of its first line and all lines below. -/
def read (pushed : Pushed) (flag : Char) (l : Line) (body : List Line) : Reading Draft := do
  let d ← readHead flag l
  let d ← body.foldlM readLine d
  return pushed.tags.foldl (fun d tag => d.addTag tag.1) d

end Draft

/-! ## Whole directives -/

/-- Completes the metadata of a directive: pushed entries fill in keys that were not written, and
the line is recorded. -/
def Pushed.complete (pushed : Pushed) (m : Metadata) (line : Nat) : Metadata :=
  (pushed.metadata.foldl (fun m e => m.insertIfNew e.1 e.2.1) m).setLine line

/-- The offset at which the last of some lines ends, or the one given if there is none. -/
def lastStop (stop : Nat) (lines : List Line) : Nat :=
  lines.getLast?.elim stop (·.ending.stop)

/-- Reads the directive that a block starts with, from its date on. Gives the directive and the
lines of the block that do not belong to it. -/
def Block.directive (pushed : Pushed) (b : Block) :
    Reading (Placed Directive × List Line) := do
  let start := b.head.here
  let line := b.head.tokens.head?.elim 0 (·.line)
  let place (stop : Nat) (date : Date) (m : Metadata) (body : Directive.Body) :
      Placed Directive :=
    ⟨⟨date, pushed.complete m line, body⟩, ⟨start.start, max stop start.stop⟩⟩
  let transaction (date : Date) (flag : Char) (l : Line) :
      Reading (Placed Directive × List Line) := do
    let d ← Draft.read pushed flag l b.body
    let stop := lastStop b.head.ending.stop b.body
    return (place stop date d.metadata (.transaction d.transaction), [])
  let (date, rest) ← b.head.date
  match rest.tokens with
  | [] => throw ⟨.missingDirective, start⟩
  | t :: ts =>
    if t.isTransactionFlag then transaction date (Line.flagValue t) (rest.withTokens ts)
    else if t.kind = .string then transaction date Flag.okay rest
    else
      match t.kind with
      | .keyword k =>
        let (body, rest) ← (rest.withTokens ts).statement k t.span
        rest.finish
        let (m, stop, leftover) ← readMetadata {} b.head.ending.stop b.body
        return (place stop date m body, leftover)
      | _ => throw ⟨.missingDirective, if t.endsLine then start else t.span⟩

end DoubleEntry
