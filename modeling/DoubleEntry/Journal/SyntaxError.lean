import DoubleEntry.Token.Basic

/-!
# Syntax errors

What can be wrong with a line of ledger text, and how it is put to the user.
-/

namespace DoubleEntry

/-- What the grammar asks for at a place. -/
inductive Expectation where
  | account | currency | string | date | number | closingParen | costComponent | metadataKey
  | metadataValue | tag | tagOrLink | postingOrMetadata | directive | endOfLine
deriving DecidableEq, Repr

/-- The name of what is asked for. -/
def Expectation.text : Expectation → String
  | account => "account"
  | currency => "currency"
  | string => "string"
  | date => "date"
  | number => "number"
  | closingParen => "')'"
  | costComponent => "cost component"
  | metadataKey => "metadata key"
  | metadataValue => "metadata value"
  | tag => "tag"
  | tagOrLink => "tag or link"
  | postingOrMetadata => "posting or metadata"
  | directive => "directive"
  | endOfLine => "end of line"

/-- What can be pushed and popped: a tag, or metadata under a key. -/
inductive PushKey where
  | tag (name : String)
  | metadata (key : String)
deriving DecidableEq, Repr

/-- The kind and the name of what is pushed or popped. -/
def PushKey.text : PushKey → String
  | tag name => s!"tag '{name}'"
  | metadata key => s!"metadata '{key}'"

namespace SyntaxError

/-- What is wrong. -/
inductive Cause where
  /-- Text that is no token. -/
  | unexpectedInput (text : String)
  /-- A token other than the one asked for. -/
  | expected (what : Expectation) (found : String)
  /-- The line ends before what is asked for. -/
  | unexpectedEnd (what : Expectation)
  /-- A date that the calendar does not have. -/
  | invalidDate (text : String)
  /-- A number that does not fit a decimal. -/
  | invalidNumber (text : String)
  /-- A division without a result. -/
  | noQuotient
  /-- An indented line where a directive should begin. -/
  | unexpectedIndent
  /-- A pop without a push before it. -/
  | unbalancedPop (key : PushKey)
  /-- A push that no pop ends. -/
  | unclosedPush (key : PushKey)
  /-- A date without a directive after it. -/
  | missingDirective
deriving DecidableEq, Repr

/-- What is wrong, in words. -/
def Cause.message : Cause → String
  | unexpectedInput text => s!"syntax error: unexpected '{text}'"
  | expected what found => s!"expected {what.text}, found '{found}'"
  | unexpectedEnd what => s!"expected {what.text}, found end of line"
  | invalidDate text => s!"invalid date '{text}'"
  | invalidNumber text => s!"invalid number '{text}'"
  | noQuotient => "invalid expression: division by zero"
  | unexpectedIndent => "unexpected indentation"
  | unbalancedPop key => s!"attempting to pop absent {key.text}"
  | unclosedPush key => s!"unbalanced pushed {key.text}"
  | missingDirective => "missing directive after date"

end SyntaxError

/-- Something wrong with the text at a place. -/
structure SyntaxError where
  cause : SyntaxError.Cause
  /-- The place. -/
  span : Span
deriving DecidableEq, Repr

/-- The words for the error. -/
def SyntaxError.message (e : SyntaxError) : String := e.cause.message

end DoubleEntry
