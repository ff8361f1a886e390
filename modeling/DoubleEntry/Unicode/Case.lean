/-!
# Letter case

The capitals of characters, as far as they are ASCII. A text in capitals equals an ASCII word
exactly if its characters have the letters of that word for capitals, and then no other character
matters.
-/

namespace DoubleEntry.Unicode

/-- The characters outside ASCII whose capitals are ASCII: dotless i, long s, sharp s and the Latin
ligatures. -/
def asciiCapitals : List (Char × String) :=
  [('ı', "I"), ('ſ', "S"), ('ß', "SS"), ('ﬀ', "FF"), ('ﬁ', "FI"), ('ﬂ', "FL"), ('ﬃ', "FFI"),
    ('ﬄ', "FFL"), ('ﬅ', "ST"), ('ﬆ', "ST")]

/-- The capitals of a character, if they are ASCII; any other character stays as it is. -/
def capitals (c : Char) : List Char :=
  match asciiCapitals.lookup c with
  | some capitals => capitals.toList
  | none => [c.toUpper]

/-- A text with every character replaced by its ASCII capitals, if it has any. -/
def toCapitals (s : String) : String := String.ofList (s.toList.flatMap capitals)

end DoubleEntry.Unicode
