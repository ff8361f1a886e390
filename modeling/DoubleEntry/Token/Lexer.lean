import DoubleEntry.Token.Basic
import DoubleEntry.Unicode.Category

/-!
# From text to tokens

A token is recognised by its first character, which decides between a few forms. Blanks between
tokens are skipped; those at the start of a line become a token of their own.

* `Token.lexeme`: the kind of the token that starts with a character, and how many more it takes.
* `Token.scan`: all tokens of a text, in order. Nothing is lost but blanks: text that is no token
  becomes a token of kind `error`.
-/

namespace DoubleEntry.Token

/-- How many characters at the front have the property. -/
def countWhile (p : Char → Bool) (cs : List Char) : Nat := (cs.takeWhile p).length

/-- Whether the character is a blank within a line. -/
def isBlank (c : Char) : Bool := c == ' ' || c == '\t'

/-! ## Dates and numbers -/

/-- Whether the character separates the parts of a date. -/
def isDateSeparator (c : Char) : Bool := c == '-' || c == '/'

/-- The one or two digits at the front, if there are any. -/
def twoDigits? (cs : List Char) : Option Nat :=
  match min 2 (countWhile Unicode.isDecimalDigit cs) with
  | 0 => none
  | n => some n

/-- The length of the date at the front: four digits, and twice a separator and one or two
digits. -/
def dateLength? (cs : List Char) : Option Nat := do
  let separated? (cs : List Char) : Option Nat :=
    match cs with
    | c :: rest => if isDateSeparator c then twoDigits? rest else none
    | [] => none
  if (cs.take 4).countP Unicode.isDecimalDigit ≠ 4 then none
  else
    let month ← separated? (cs.drop 4)
    let day ← separated? (cs.drop (4 + 1 + month))
    some (4 + 1 + month + 1 + day)

/-- The length of the groups `,ddd` at the front, and whether a comma without three digits follows
them. Such a comma is counted too. -/
def commaGroups : List Char → Nat × Bool
  | ',' :: a :: b :: c :: rest =>
    if [a, b, c].all Unicode.isDecimalDigit then
      let (n, broken) := commaGroups rest
      (n + 4, broken)
    else (1, true)
  | ',' :: _ => (1, true)
  | _ => (0, false)

/-- The length of the point and the digits after it, `0` if there is no point. -/
def fractionLength : List Char → Nat
  | '.' :: rest => 1 + countWhile Unicode.isDecimalDigit rest
  | _ => 0

/-- The length of the number at the front, which starts with a digit, and whether it ends with a
comma that separates nothing. Groups are separated only after at most three digits. -/
def numberLength (cs : List Char) : Nat × Bool :=
  let digits := countWhile Unicode.isDecimalDigit cs
  let (groups, broken) := if digits ≤ 3 then commaGroups (cs.drop digits) else (0, false)
  if broken then (digits + groups, true)
  else (digits + groups + fractionLength (cs.drop (digits + groups)), false)

/-! ## Strings -/

/-- What follows an opening quote: a string up to the next quote. A backslash takes the character
after it along. Text in which the quote is missing, or in which a backslash stands before a line
feed or at the end, is an error up to there. -/
def stringRest : List Char → Kind × Nat
  | [] => (.error, 0)
  | '"' :: _ => (.string, 1)
  | '\\' :: [] => (.error, 0)
  | '\\' :: c :: rest =>
    if c = '\n' then (.error, 0)
    else
      let (kind, n) := stringRest rest
      (kind, n + 2)
  | _ :: rest =>
    let (kind, n) := stringRest rest
    (kind, n + 1)

/-! ## Accounts and other words -/

/-- The first components of account names. -/
def accountRoots : List (List Char) :=
  ["Assets", "Liabilities", "Equity", "Income", "Expenses"].map String.toList

/-- Whether a further component of an account name can start with the character. -/
def startsComponent (c : Char) : Bool := Unicode.isUpper c || Unicode.isDecimalDigit c

/-- Whether the character can stand inside a component. -/
def inComponent (c : Char) : Bool := Unicode.isLetter c || Unicode.isDecimalDigit c || c == '-'

/-- The length of what continues an account name, from inside a component. -/
def accountRest : List Char → Nat
  | [] => 0
  | ':' :: c :: rest => if startsComponent c then accountRest rest + 2 else 0
  | c :: rest => if inComponent c then accountRest rest + 1 else 0

/-- The length of the account name at the front: a root and at least one further component. -/
def accountLength? (cs : List Char) : Option Nat := do
  let root ← accountRoots.find? (·.isPrefixOf cs)
  match cs.drop root.length with
  | ':' :: c :: rest =>
    if startsComponent c then some (root.length + 2 + accountRest rest) else none
  | _ => none

/-- Whether the character is an ASCII capital or digit. -/
def isCapitalOrDigit (c : Char) : Bool := c.isUpper || c.isDigit

/-- Whether the character continues a word that starts with a capital. -/
def inCapitalWord (c : Char) : Bool :=
  isCapitalOrDigit c || c == '\'' || c == '.' || c == '_' || c == '-'

/-- The first letters of currencies. -/
def currencyInitials : List Char := "ACEILMPRSTU".toList

/-- The capitals that are flags when they stand alone. -/
def flagLetters : List Char := "PSTCURM".toList

/-- What a word of capitals is, other than an account. -/
def capitalWordKind (first : Char) (rest : List Char) : Kind :=
  let word := first :: rest
  let falseWord := "FALSE".toList
  let nullWord := "NULL".toList
  if word = "TRUE".toList then .bool true
  else if word = falseWord then .bool false
  else if word = nullWord then .null
  else if rest = [] then (if first ∈ flagLetters then .flag else .error)
  else if rest.all isCapitalOrDigit ∧
      (first ∈ currencyInitials ∨ falseWord.isPrefixOf word ∨ nullWord.isPrefixOf word) then
    .currency
  else .error

/-- Whether the character continues a word that starts with a small letter. -/
def inSmallWord (c : Char) : Bool := c.isAlphanum || c == '_' || c == '-'

/-- What a word of small letters is, unless it is a metadata key. -/
def smallWordKind (word : List Char) : Kind :=
  match Keyword.ofText? (String.ofList word) with
  | some k => .keyword k
  | none => .error

/-- Whether the character can stand in the name of a tag or link. -/
def inTag (c : Char) : Bool :=
  c.isAlphanum || c == '_' || c == '/' || c == '.' || c == '-'

/-! ## One token -/

/-- The kind of the token that starts with `c`, and how many of the characters `cs` after it belong
to it. -/
def lexeme (c : Char) (cs : List Char) : Kind × Nat :=
  if Unicode.isDecimalDigit c then
    match dateLength? (c :: cs) with
    | some n => (.date, n - 1)
    | none => (.number, (numberLength (c :: cs)).1 - 1)
  else if c.isUpper then
    match accountLength? (c :: cs) with
    | some n => (.account, n - 1)
    | none =>
      let n := countWhile inCapitalWord cs
      (capitalWordKind c (cs.take n), n)
  else if c.isLower then
    let n := countWhile inSmallWord cs
    match cs.drop n with
    | ':' :: _ => (.metaKey, n + 1)
    | _ => (smallWordKind (c :: cs.take n), n)
  else
    match c, cs with
    | '-', d :: _ =>
      if Unicode.isDecimalDigit d then
        let (n, broken) := numberLength cs
        (if broken then .minus else .number, n)
      else (.minus, 0)
    | '-', [] => (.minus, 0)
    | '"', _ => stringRest cs
    | '#', _ =>
      match countWhile inTag cs with
      | 0 => (.hash, 0)
      | n => (.tag, n)
    | '^', _ =>
      match countWhile inTag cs with
      | 0 => (.error, 0)
      | n => (.link, n)
    | ';', _ => (.comment, countWhile (fun d => d != '\r' && d != '\n') cs)
    | '\n', _ => (.newline, 0)
    | '\r', '\n' :: _ => (.newline, 1)
    | '\x7b', '\x7b' :: _ => (.doubleLeftBrace, 1)
    | '\x7b', _ => (.leftBrace, 0)
    | '\x7d', '\x7d' :: _ => (.doubleRightBrace, 1)
    | '\x7d', _ => (.rightBrace, 0)
    | '@', '@' :: _ => (.doubleAt, 1)
    | '@', _ => (.at, 0)
    | '(', _ => (.leftParen, 0)
    | ')', _ => (.rightParen, 0)
    | ',', _ => (.comma, 0)
    | '~', _ => (.tilde, 0)
    | '+', _ => (.plus, 0)
    | '*', _ => (.star, 0)
    | '/', _ => (.slash, 0)
    | '!', _ => (.pending, 0)
    | '?', _ | '%', _ | '&', _ => (.flag, 0)
    | _, _ => (.error, 0)

/-! ## All tokens -/

/-- The number of bytes of some characters in UTF-8. -/
def byteLength : List Char → Nat
  | [] => 0
  | c :: cs => c.utf8Size + byteLength cs

/-- How far a text has been scanned. -/
structure Cursor where
  /-- The offset of the next byte. -/
  offset : Nat := 0
  /-- The line of the next character, from 1. -/
  line : Nat := 1
  /-- Whether no token has been found on the line so far. -/
  fresh : Bool := true

/-- The place after some more characters of a line. -/
def Cursor.advance (pos : Cursor) (cs : List Char) (fresh : Bool) : Cursor :=
  ⟨pos.offset + byteLength cs, pos.line + cs.count '\n', fresh⟩

/-- A token that starts at a place. -/
def Cursor.token (pos : Cursor) (kind : Kind) (cs : List Char) : Token :=
  ⟨kind, ⟨pos.offset, pos.offset + byteLength cs⟩, pos.line, String.ofList cs⟩

/-- The tokens of the rest of a text. Blanks in front of the first token of a line become an
`indent` token, unless the line is blank. -/
def scanFrom (pos : Cursor) (cs : List Char) : List Token :=
  let blanks := cs.takeWhile isBlank
  let after := pos.advance blanks pos.fresh
  match _ : cs.dropWhile isBlank with
  | [] => []
  | c :: rest =>
    let (kind, n) := lexeme c rest
    let piece := c :: rest.take n
    let indent :=
      if pos.fresh ∧ blanks ≠ [] ∧ kind ≠ .newline then [pos.token .indent blanks] else []
    indent ++ after.token kind piece ::
      scanFrom (after.advance piece (kind = .newline)) (rest.drop n)
termination_by cs.length
decreasing_by
  have h : (c :: rest).length ≤ cs.length := by
    rw [← ‹cs.dropWhile isBlank = c :: rest›]
    exact (List.dropWhile_suffix isBlank).length_le
  simp only [List.length_cons, List.length_drop] at *
  omega

/-- The tokens of a text. -/
def scan (source : String) : List Token := scanFrom {} source.toList

end DoubleEntry.Token
