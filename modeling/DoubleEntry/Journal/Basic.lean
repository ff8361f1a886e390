import DoubleEntry.Journal.Entry
import DoubleEntry.Token.Lexer

/-!
# Journals

A journal is what ledger text says: its directives, options, includes and plugins, and the errors in
it. Each block of the text adds at most one item, and perhaps an error about the indented lines
below it; a block with an error adds nothing else.

* `Block.step`: what one block adds.
* `Journal.ofText`: the journal of a text.
* `Journal.directives`, `Journal.errors`, …: its items by kind, in the order of the text.
-/

namespace DoubleEntry

/-- An option line: `option "title" "Household"`. -/
structure OptionLine where
  key : String
  value : String
  span : Span
deriving DecidableEq, Repr

/-- An include line: `include "2024.ledger"`. -/
structure IncludeLine where
  /-- The path as it is written. -/
  path : String
  span : Span
deriving DecidableEq, Repr

/-- A plugin line: `plugin "name" "configuration"`. -/
structure PluginLine where
  name : String
  config : Option String
  span : Span
deriving DecidableEq, Repr

/-- One thing that a ledger text says, or one error in it. -/
inductive Item where
  | directive (d : Placed Directive)
  | option (o : OptionLine)
  | inclusion (i : IncludeLine)
  | plugin (p : PluginLine)
  | error (e : SyntaxError)
deriving DecidableEq, Repr

/-- What a ledger text says, in its order. -/
structure Journal where
  items : List Item
deriving DecidableEq, Repr

/-! ## Lines other than directives -/

namespace Line

/-- Reads the two strings of an option. -/
def option (l : Line) (start : Span) : Reading OptionLine := do
  let (key, l) ← l.string
  let span := start.merge l.here
  let (value, l) ← l.string
  l.finish
  return ⟨key, value, span⟩

/-- Reads the path of an include. -/
def inclusion (l : Line) (start : Span) : Reading IncludeLine := do
  let span := start.merge l.here
  let (path, l) ← l.string
  l.finish
  return ⟨path, span⟩

/-- Reads the name of a plugin and, if there is one, its configuration. -/
def plugin (l : Line) (start : Span) : Reading PluginLine := do
  let nameSpan := l.here
  let (name, l) ← l.string
  let span := start.merge (if l.nextKind? = some .string then l.here else nameSpan)
  let (config, l) ← l.string?
  l.finish
  return ⟨name, config, span⟩

end Line

/-! ## Pushes and pops -/

namespace Pushed

/-- The list without the last element that has the property, if there is one. -/
def eraseLast? {α : Type} (p : α → Bool) : List α → Option (List α)
  | [] => none
  | a :: l =>
    match eraseLast? p l with
    | some l => some (a :: l)
    | none => if p a then some l else none

/-- Opens a tag. -/
def pushTag (pushed : Pushed) (tag : String) (span : Span) : Pushed :=
  { pushed with tags := pushed.tags ++ [(tag, span)] }

/-- Ends the latest push of a tag. -/
def popTag? (pushed : Pushed) (tag : String) : Option Pushed := do
  return { pushed with tags := ← eraseLast? (·.1 = tag) pushed.tags }

/-- Opens a metadata entry. -/
def pushMetadata (pushed : Pushed) (key : String) (value : MetaValue) (span : Span) : Pushed :=
  { pushed with metadata := pushed.metadata ++ [(key, value, span)] }

/-- Ends the latest push of a key. -/
def popMetadata? (pushed : Pushed) (key : String) : Option Pushed := do
  return { pushed with metadata := ← eraseLast? (·.1 = key) pushed.metadata }

/-- Reads the tag of a push and opens it. -/
def readPushTag (pushed : Pushed) (l : Line) : Reading (Pushed × Line) := do
  let (t, rest) ← l.token .tag .tag
  return (pushed.pushTag (Line.signedName t) t.span, rest)

/-- Reads the tag of a pop and ends its latest push. -/
def readPopTag (pushed : Pushed) (l : Line) : Reading (Pushed × Line) := do
  let (t, rest) ← l.token .tag .tag
  let tag := Line.signedName t
  match pushed.popTag? tag with
  | some pushed => return (pushed, rest)
  | none => throw ⟨.unbalancedPop (.tag tag), t.span⟩

/-- Reads a key and its value and opens the entry, provided that nothing follows on the line. -/
def readPushMetadata (pushed : Pushed) (l : Line) : Reading (Pushed × Line) := do
  let (t, rest) ← l.token .metaKey .metadataKey
  let (value, rest) ← rest.value
  rest.finish
  return (pushed.pushMetadata (Line.keyName t) value t.span, rest)

/-- Reads the key of a pop and ends its latest push. -/
def readPopMetadata (pushed : Pushed) (l : Line) : Reading (Pushed × Line) := do
  let (t, rest) ← l.token .metaKey .metadataKey
  let key := Line.keyName t
  match pushed.popMetadata? key with
  | some pushed => return (pushed, rest)
  | none => throw ⟨.unbalancedPop (.metadata key), t.span⟩

/-- The errors about what is still open at the end: tags first, then metadata. -/
def unclosed (pushed : Pushed) : List SyntaxError :=
  pushed.tags.map (fun (tag, span) => ⟨.unclosedPush (.tag tag), span⟩) ++
    pushed.metadata.map fun (key, _, span) => ⟨.unclosedPush (.metadata key), span⟩

end Pushed

/-! ## Blocks -/

/-- What a block adds, what is pushed after it, and which of its lines are still to be looked at. -/
structure Step where
  item : Option Item
  pushed : Pushed
  leftover : List Line

namespace Step

/-- A step that adds nothing. -/
def skip (pushed : Pushed) (leftover : List Line) : Step := ⟨none, pushed, leftover⟩

/-- A step that adds an error and takes the whole block. -/
def fail (pushed : Pushed) (e : SyntaxError) : Step := ⟨some (.error e), pushed, []⟩

/-- A step that adds what was read, or the error of reading it. -/
def ofReading {α : Type} (pushed : Pushed) (r : Reading α) (done : α → Step) : Checked Step := do
  match ← r.run with
  | .ok a => return done a
  | .error e => return fail pushed e

/-- A step that pushes or pops. It takes effect even if something else follows on the line, which is
an error. -/
def ofPush (pushed : Pushed) (r : Reading (Pushed × Line)) (leftover : List Line) :
    Checked Step := do
  match ← r.run with
  | .ok (pushed, rest) => ofReading pushed rest.finish fun () => skip pushed leftover
  | .error e => return fail pushed e

end Step

namespace Block

/-- The lines in front of the first block, and the blocks. -/
def ofLines : List Line → List Line × List Block
  | [] => ([], [])
  | l :: lines =>
    let (body, blocks) := ofLines lines
    if l.indent.isSome then (l :: body, blocks) else ([], ⟨l, body⟩ :: blocks)

/-- What indented lines add that belong to no directive: nothing if they hold only comments, or else
an error at the first that holds more. -/
def stray : List Line → Checked (Option Item)
  | [] => return none
  | l :: rest => do
    if l.atEnd then
      match ← l.finish.run with
      | .ok () => stray rest
      | .error e => return some (.error e)
    else
      let place := l.indent.elim l.here (·.span)
      return some (.error ⟨.unexpectedIndent, place⟩)

/-- Reads the first line of a block, and as many of the lines below as belong to it. Lines that
start with a star or a flag are headings and say nothing. -/
def step (pushed : Pushed) (b : Block) : Checked Step :=
  let head := b.head.withTokens (b.head.tokens.dropWhile (·.kind = .comment))
  match head.tokens with
  | [] => return .skip pushed b.body
  | t :: ts =>
    let rest := head.withTokens ts
    match t.kind with
    | .date =>
      Step.ofReading pushed (directive pushed { b with head }) fun (d, leftover) =>
        ⟨some (.directive d), pushed, leftover⟩
    | .keyword .option =>
      Step.ofReading pushed (rest.option t.span) fun o => ⟨some (.option o), pushed, b.body⟩
    | .keyword .inclusion =>
      Step.ofReading pushed (rest.inclusion t.span) fun i => ⟨some (.inclusion i), pushed, b.body⟩
    | .keyword .plugin =>
      Step.ofReading pushed (rest.plugin t.span) fun p => ⟨some (.plugin p), pushed, b.body⟩
    | .keyword .pushTag => Step.ofPush pushed (pushed.readPushTag rest) b.body
    | .keyword .popTag => Step.ofPush pushed (pushed.readPopTag rest) b.body
    | .keyword .pushMeta => Step.ofPush pushed (pushed.readPushMetadata rest) b.body
    | .keyword .popMeta => Step.ofPush pushed (pushed.readPopMetadata rest) b.body
    | .star | .flag => return .skip pushed b.body
    | .error => return .fail pushed ⟨.unexpectedInput t.text, t.span⟩
    | _ => return .fail pushed (head.unexpected .directive)

/-- What some blocks add, one after the other, and the errors about pushes that are open at the
end. -/
def items (pushed : Pushed) : List Block → Checked (List Item)
  | [] => return pushed.unclosed.map .error
  | b :: blocks => do
    let s ← b.step pushed
    let after ← stray s.leftover
    return s.item.toList ++ after.toList ++ (← items s.pushed blocks)

end Block

namespace Journal

/-- The journal that some tokens write. -/
def ofTokens (tokens : List Token) : Checked Journal := do
  let (leading, blocks) := Block.ofLines (Line.ofTokens tokens)
  let before ← Block.stray leading
  return ⟨before.toList ++ (← Block.items {} blocks)⟩

/-- The journal of a text. -/
def ofText (source : String) : Checked Journal := ofTokens (Token.scan source)

/-- The directives with their places. -/
def directives (j : Journal) : List (Placed Directive) :=
  j.items.filterMap fun
    | .directive d => some d
    | _ => none

/-- The option lines. -/
def options (j : Journal) : List OptionLine :=
  j.items.filterMap fun
    | .option o => some o
    | _ => none

/-- The include lines. -/
def inclusions (j : Journal) : List IncludeLine :=
  j.items.filterMap fun
    | .inclusion i => some i
    | _ => none

/-- The plugin lines. -/
def plugins (j : Journal) : List PluginLine :=
  j.items.filterMap fun
    | .plugin p => some p
    | _ => none

/-- The errors. -/
def errors (j : Journal) : List SyntaxError :=
  j.items.filterMap fun
    | .error e => some e
    | _ => none

end Journal

end DoubleEntry
