/-!
# Tokens

The words and signs of ledger text. A token keeps its text and where it stands, so that what is read
from tokens needs the source no more.

* `Span`: a range of bytes of the source.
* `Token.Kind`: what a token is.
* `Token.display`: how a token is named to the user.
-/

namespace DoubleEntry

/-- A range of bytes in the UTF-8 form of a source text. -/
structure Span where
  /-- The offset of the first byte. -/
  start : Nat
  /-- The offset just past the last byte. -/
  stop : Nat
deriving DecidableEq, Repr

namespace Span

/-- The empty range at an offset. -/
def empty (offset : Nat) : Span := ⟨offset, offset⟩

/-- The least range that covers both. -/
def merge (a b : Span) : Span := ⟨min a.start b.start, max a.stop b.stop⟩

/-- The range as text: `3..7`. -/
def text (s : Span) : String := s!"{s.start}..{s.stop}"

end Span

/-- The words that open directives and other top-level lines. -/
inductive Keyword where
  | txn | balance | opening | closing | commodity | pad | event | query | note | document | price
  | custom | option | inclusion | plugin | pushTag | popTag | pushMeta | popMeta
deriving DecidableEq, Repr

namespace Keyword

/-- Every keyword with its text. -/
def all : List (String × Keyword) :=
  [("txn", txn), ("balance", balance), ("open", opening), ("close", closing),
    ("commodity", commodity), ("pad", pad), ("event", event), ("query", query), ("note", note),
    ("document", document), ("price", price), ("custom", custom), ("option", option),
    ("include", inclusion), ("plugin", plugin), ("pushtag", pushTag), ("poptag", popTag),
    ("pushmeta", pushMeta), ("popmeta", popMeta)]

/-- The keyword with this text. -/
def ofText? (s : String) : Option Keyword := all.lookup s

end Keyword

namespace Token

/-- What a token is. -/
inductive Kind where
  | date | number | string | account | currency | tag | link | metaKey
  | keyword (k : Keyword)
  | bool (b : Bool)
  | null
  | doubleLeftBrace | doubleRightBrace | leftBrace | rightBrace | leftParen | rightParen
  | doubleAt | at | comma | tilde | hash | plus | minus | star | slash
  /-- The sign `!`, the flag of what needs review. -/
  | pending
  /-- Any other one-character flag. -/
  | flag
  | newline
  | comment
  /-- The blanks in front of the first token of a line. -/
  | indent
  /-- Text that is no token. -/
  | error
deriving DecidableEq, Repr

end Token

/-- A piece of source text. -/
structure Token where
  kind : Token.Kind
  /-- Where the piece stands. -/
  span : Span
  /-- The line on which it begins, from 1. -/
  line : Nat
  /-- The piece itself. -/
  text : String
deriving DecidableEq, Repr

namespace Token

/-- Whether the token ends what is read from a line. -/
def endsLine (t : Token) : Bool :=
  match t.kind with
  | .newline | .comment => true
  | _ => false

/-- Whether the token can flag a posting. -/
def isPostingFlag (t : Token) : Bool :=
  match t.kind with
  | .star | .pending | .flag => true
  | _ => false

/-- Whether the token can open a transaction after its date. -/
def isTransactionFlag (t : Token) : Bool :=
  t.isPostingFlag || t.kind = .keyword .txn

/-- How the token is shown: its text, or a name where the text would not show. -/
def display (t : Token) : String :=
  match t.kind with
  | .newline => "\\n"
  | .indent => "<indent>"
  | .error => "<error>"
  | .minus => "-"
  | _ => t.text

end Token

end DoubleEntry
