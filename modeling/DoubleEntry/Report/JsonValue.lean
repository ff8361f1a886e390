/-!
# JSON

Values of the JSON data format, and their text without blanks.

* `JsonValue.quote`: a string in quotes. Only quotes, backslashes and control characters below a
  blank are escaped, so the text of a value is always a single line.
* `JsonValue.text`: a value as text.
-/

namespace DoubleEntry

/-- A JSON value. There are neither fractions nor nulls. -/
inductive JsonValue where
  | string (s : String)
  | number (n : Nat)
  | array (values : List JsonValue)
  /-- An object, with its keys in the order in which they are written. -/
  | object (fields : List (String × JsonValue))

namespace JsonValue

/-- The escape of a character in a string, or the character itself. -/
def escape (c : Char) : List Char :=
  match c with
  | '"' => ['\\', '"']
  | '\\' => ['\\', '\\']
  | '\n' => ['\\', 'n']
  | '\r' => ['\\', 'r']
  | '\t' => ['\\', 't']
  | '\x08' => ['\\', 'b']
  | '\x0c' => ['\\', 'f']
  | c =>
    if c.toNat < 0x20 then
      ['\\', 'u', '0', '0', (c.toNat / 16).digitChar, (c.toNat % 16).digitChar]
    else [c]

/-- A string in quotes. -/
def quote (s : String) : List Char := '"' :: s.toList.flatMap escape ++ ['"']

/-- Texts with commas between them. -/
def separate : List (List Char) → List Char
  | [] => []
  | [cs] => cs
  | cs :: rest => cs ++ ',' :: separate rest

mutual

/-- The characters of a value. -/
def toChars : JsonValue → List Char
  | string s => quote s
  | number n => (toString n).toList
  | array values => '[' :: separate (valuesToChars values) ++ [']']
  | object fields => '\x7b' :: separate (fieldsToChars fields) ++ ['\x7d']

/-- The characters of each value. -/
def valuesToChars : List JsonValue → List (List Char)
  | [] => []
  | v :: rest => v.toChars :: valuesToChars rest

/-- The characters of each field. -/
def fieldsToChars : List (String × JsonValue) → List (List Char)
  | [] => []
  | (key, v) :: rest => (quote key ++ ':' :: v.toChars) :: fieldsToChars rest

end

/-- The value as text. -/
def text (v : JsonValue) : String := String.ofList v.toChars

/-- An array of strings. -/
def strings (l : List String) : JsonValue := array (l.map string)

end JsonValue

end DoubleEntry
