import DoubleEntry.Journal.Basic
import DoubleEntry.Loading.Problem
import DoubleEntry.Loading.Source

/-!
# Loading

Reads a ledger from its root file and the files that this one includes, directly or through others.
The directives come in the order in which a reader meets the files: first all of a file, then what
its include lines bring. Each file counts once; one that includes itself, even through others, is a
problem of the include line that closes the cycle.

* `loadFile`: reads a file and what it includes. The files that lead to it are passed along; each is
  one of the finitely many that have a text, so this comes to an end.
* `load`: reads a ledger from its root file.
-/

namespace DoubleEntry

/-- A plugin line with the number of its file. -/
structure Plugin where
  line : PluginLine
  /-- The position of the file among the sources. -/
  file : Nat
deriving DecidableEq, Repr

/-- What was read so far. -/
structure Loaded where
  /-- The directives, each with the file and line where it was written. -/
  directives : List Directive := []
  settings : Settings := {}
  plugins : List Plugin := []
  sources : Sources := []
  problems : List LoadProblem := []

/-- The directive with the file that it was written in, also on its postings. -/
def Directive.inFile (d : Directive) (path : String) : Directive :=
  let body :=
    match d.body with
    | .transaction t =>
      .transaction { t with
        postings := t.postings.map fun p => { p with metadata := p.metadata.setFile path } }
    | body => body
  { d with metadata := d.metadata.setFile path, body }

namespace Loaded

/-- The path of the root file, which is read first. -/
def rootPath? (s : Loaded) : Option String := s.sources.head?.map (·.path)

/-- Whether a file was read. -/
def has (s : Loaded) (path : String) : Bool := s.sources.any (·.path = path)

/-- Notes a problem. -/
def note (s : Loaded) (cause : LoadProblem.Cause) (location : Location) : Loaded :=
  { s with problems := s.problems ++ [⟨cause, location⟩] }

/-- Takes in an option line. -/
def addOption (s : Loaded) (o : OptionLine) (location : Location) : Loaded :=
  let (settings, warning) := s.settings.set o.key o.value
  let s := { s with settings }
  warning.elim s fun w => s.note (.setting w) location

/-- Takes in what a file says itself, without what it includes. -/
def addFile (s : Loaded) (path text : String) (journal : Journal) : Loaded :=
  let source : Source := ⟨path, text⟩
  let starts := source.lineStarts
  let place (span : Span) : Location := ⟨path, (Source.positionIn starts span.start).1⟩
  let s := { s with
    sources := s.sources ++ [source]
    plugins := s.plugins ++ journal.plugins.map (⟨·, s.sources.length⟩)
    directives := s.directives ++ journal.directives.map (·.value.inFile path) }
  let s := journal.errors.foldl (fun s e => s.note (.parsing e) (place e.span)) s
  journal.options.foldl (fun s o => s.addOption o (place o.span)) s

end Loaded

/-- Reads a file and all that it includes, unless it was read before. `above` are the files that
include it, from the root on. -/
def loadFile (files : Files) (above : List String) (path : String) (s : Loaded) :
    Checked (Loaded × Option LoadFailure) :=
  if _ : path ∈ above then return (s, some (.cycle (above ++ [path])))
  else if s.has path then return (s, none)
  else
    match _ : files.texts.lookup path with
    | none => return (s, some (.unreadable path (files.failure path)))
    | some text => do
      let journal ← Journal.ofText text
      let starts := (Source.mk path text).lineStarts
      let include_ (s : Loaded) (i : IncludeLine) : Checked Loaded := do
        let target := Path.join (Path.parent path) i.path
        let location : Location := ⟨path, (Source.positionIn starts i.span.start).1⟩
        match files.resolve target with
        | .error e => return s.note (.inclusion (.unreadable target e)) location
        | .ok canonical =>
          let (s, failure) ← loadFile files (above ++ [path]) canonical s
          return failure.elim s fun f => s.note (.inclusion f) location
      let s ← journal.inclusions.foldlM include_ (s.addFile path text journal)
      return (s, none)
termination_by files.countOutside above
decreasing_by exact files.countOutside_append_lt ‹_› ‹_›

/-- Reads a ledger from its root file. -/
def load (files : Files) (root : String) : ExceptT LoadFailure Checked Loaded := do
  match files.resolve root with
  | .error e => throw (.unreadable root e)
  | .ok path =>
    let start : Loaded := { settings := { filename := some path } }
    match ← loadFile files [] path start with
    | (s, none) => return s
    | (_, some failure) => throw failure

end DoubleEntry
