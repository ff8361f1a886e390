import DoubleEntry.Proofs.Report.JsonReader
import DoubleEntry.Report.Basic

/-!
# What a report tells

The four lines of a report can be told apart and read back, whatever the texts are that the ledger
puts into them.

* `ReportData`: what a report tells. `ReportData.ofLines?` reads it from the lines.
* `Summary.Same`: the summaries say the same.
* `reportLines_decoded`: no line of a report breaks, and the lines tell exactly what they were made
  from.
-/

namespace DoubleEntry

/-! ## Decoding values -/

namespace JsonValue

variable {α κ : Type}

def string? : JsonValue → Option String
  | .string s => some s
  | _ => none

def number? : JsonValue → Option Nat
  | .number n => some n
  | _ => none

/-- The elements of an array. -/
def list? (decode : JsonValue → Option α) : JsonValue → Option (List α)
  | .array values => values.mapM decode
  | _ => none

/-- The entries of an object, in their order. -/
def entries? (key? : String → Option κ) (decode : JsonValue → Option α) :
    JsonValue → Option (List (κ × α))
  | .object fields => fields.mapM fun e => do return (← key? e.1, ← decode e.2)
  | _ => none

/-- The values of an object that has these keys in this order. -/
def values? (keys : List String) : JsonValue → Option (List JsonValue)
  | .object fields => if fields.map Prod.fst = keys then some (fields.map Prod.snd) else none
  | _ => none

/-- A list is decoded if each of its values is. -/
theorem mapM_map_of_inverse {β : Type} {encode : α → β} {decode : β → Option α}
    (h : ∀ a, decode (encode a) = some a) (l : List α) : (l.map encode).mapM decode = some l := by
  have hinverse : decode ∘ encode = fun a => pure (id a) := funext h
  rw [List.mapM_map, hinverse, List.mapM_pure, List.map_id]
  rfl

/-- An array gives back its values if each of them is given back. -/
theorem list?_array {encode : α → JsonValue} {decode : JsonValue → Option α}
    (h : ∀ a, decode (encode a) = some a) (l : List α) :
    list? decode (.array (l.map encode)) = some l := mapM_map_of_inverse h l

theorem list?_strings (l : List String) : list? string? (.strings l) = some l := by
  have hstring (s : String) : string? (.string s) = some s := rfl
  exact list?_array hstring l

/-- An object gives back its entries if their keys and their values are given back. -/
theorem entries?_object {key : κ → String} {key? : String → Option κ} {encode : α → JsonValue}
    {decode : JsonValue → Option α} (hkey : ∀ k, key? (key k) = some k)
    (h : ∀ a, decode (encode a) = some a) (l : List (κ × α)) :
    entries? key? decode (.object (l.map fun e => (key e.1, encode e.2))) = some l := by
  refine mapM_map_of_inverse (fun e => ?_) l
  rw [hkey, h]
  rfl

/-- The fields of a record are looked up by the keys with which they are written. -/
theorem values?_object {keys : List String} {fields : List (String × JsonValue)}
    (h : fields.map Prod.fst = keys) :
    values? keys (.object fields) = some (fields.map Prod.snd) := if_pos h

end JsonValue

open JsonValue

/-! ## Decoding reports -/

/-- Reads the document about an error. -/
def LedgerError.ofJson? (v : JsonValue) : Option LedgerError := do
  match ← v.values? ["file", "line", "message"] with
  | [file, line, message] => return ⟨← file.string?, ← line.number?, ← message.string?⟩
  | _ => none

theorem LedgerError.ofJson?_toJson (e : LedgerError) : ofJson? e.toJson = some e := by
  rw [ofJson?, toJson, values?_object]
  · rfl
  · rfl

/-- Reads the day of closing, an empty text for an account that is open. -/
def AccountRecord.closed? (text : String) : Option (Option Date) :=
  if text = "" then some none else (Date.ofText? text).map some

/-- Reads the document about an account. -/
def AccountRecord.ofJson? (v : JsonValue) : Option AccountRecord := do
  match ← v.values? ["open", "close", "currencies", "balance"] with
  | [opened, closed, currencies, balances] =>
    return {
      opened := ← Date.ofText? (← opened.string?)
      closed := ← closed? (← closed.string?)
      currencies := ← currencies.list? string?
      balances := ← balances.list? string? }
  | _ => none

/-- An empty string stands for an account that is not closed. -/
theorem AccountRecord.closed?_elim (closed : Option Date) :
    closed? (closed.elim "" Date.text) = some closed := by
  cases closed with
  | none => rfl
  | some d =>
    have hne : d.text ≠ "" := by
      intro hempty
      have hread := Date.ofText?_text d
      rw [hempty] at hread
      cases hread
    rw [Option.elim_some, closed?, if_neg hne, Date.ofText?_text, Option.map_some]

theorem AccountRecord.ofJson?_toJson (r : AccountRecord) : ofJson? r.toJson = some r := by
  rw [ofJson?, toJson, values?_object]
  · simp only [Option.bind_eq_bind, Option.bind_some, List.map_cons, List.map_nil, string?,
      Date.ofText?_text, closed?_elim, list?_strings]
    rfl
  · rfl

/-- Reads the document about a flagged item. -/
def FlagNote.ofJson? (v : JsonValue) : Option FlagNote := do
  match ← v.values? ["file", "line", "message", "flag"] with
  | [file, line, message, flag] =>
    match (← flag.string?).toList with
    | [c] => return ⟨← file.string?, ← line.number?, ← message.string?, c⟩
    | _ => none
  | _ => none

theorem FlagNote.ofJson?_toJson (n : FlagNote) : ofJson? n.toJson = some n := by
  have hflag : n.flag.toString.toList = [n.flag] := String.toList_ofList
  rw [ofJson?, toJson, values?_object]
  · change (match n.flag.toString.toList with
      | [c] => some (⟨n.file, n.line, n.message, c⟩ : FlagNote)
      | _ => none) = some n
    rw [hflag]
  · rfl

/-- Reads a line number that stands as a key. -/
def lineNumber? (key : String) : Option Nat := (JsonValue.ofText? key).bind number?

/-- The keys of lines are numbers, and are given back as such. -/
theorem lineNumber?_toString (n : Nat) : lineNumber? (toString n) = some n := by
  have htext : toString n = (JsonValue.number n).text := by
    rw [text, toChars, String.ofList_toList]
  rw [lineNumber?, htext, ofText?_text]
  rfl

/-- The document about some lines with their amounts. -/
def linesToJson (lines : List (Nat × List String)) : JsonValue :=
  .object (lines.map fun e => (toString e.1, .strings e.2))

/-- The amounts of a file are given back with their lines. -/
theorem entries?_linesToJson (lines : List (Nat × List String)) :
    entries? lineNumber? (list? string?) (linesToJson lines) = some lines :=
  entries?_object lineNumber?_toString list?_strings lines

namespace AutomaticAmounts

/-- The amounts of all lines of all files. -/
def entries (index : AutomaticAmounts) : List (String × List (Nat × List String)) :=
  index.toList.map fun e => (e.1, e.2.toList)

theorem toJson_eq (index : AutomaticAmounts) :
    index.toJson = .object (index.entries.map fun e => (e.1, linesToJson e.2)) := by
  rw [entries, List.map_map]
  rfl

/-- Two indexes have the same entries if they have the same lines for every file. -/
theorem entries_eq_iff (index index' : AutomaticAmounts) :
    index.entries = index'.entries ↔
      ∀ file : String,
        index[file]?.map Std.TreeMap.toList = index'[file]?.map Std.TreeMap.toList := by
  have hmap (index : AutomaticAmounts) : index.entries =
      (index.map fun _ lines => lines.toList).toList := by
    rw [Std.TreeMap.toList_map]
    rfl
  rw [hmap, hmap, ← Std.TreeMap.equiv_iff_toList_eq]
  constructor
  · intro h file
    have hfile := h.getElem?_eq (k := file)
    rwa [Std.TreeMap.getElem?_map, Std.TreeMap.getElem?_map] at hfile
  · intro h
    refine Std.TreeMap.Equiv.of_forall_constGet?_eq fun file => ?_
    rw [Std.TreeMap.getElem?_map, Std.TreeMap.getElem?_map]
    exact h file

end AutomaticAmounts

/-- What a report tells. -/
structure ReportData where
  errors : List LedgerError
  /-- The accounts in order, with their records. -/
  accounts : List (Account × AccountRecord)
  commodities : List String
  payees : List String
  narrations : List String
  tags : List String
  links : List String
  flagged : List FlagNote
  /-- The amounts that were filled in, by file and line. -/
  automatic : List (String × List (Nat × List String))
deriving DecidableEq, Repr

namespace ReportData

/-- What a report on some errors and a summary is to tell. -/
def of (errors : List LedgerError) (s : Summary) : ReportData where
  errors
  accounts := s.accounts.toList
  commodities := s.vocabulary.commodities.toList
  payees := s.vocabulary.payees.toList
  narrations := s.vocabulary.narrations.toList
  tags := s.vocabulary.tags.toList
  links := s.vocabulary.links.toList
  flagged := s.flagged
  automatic := s.automatic.entries

/-- Reads the four documents of a report. -/
def ofDocuments? (documents : List JsonValue) : Option ReportData := do
  match documents with
  | [errors, names, flagged, automatic] =>
    match ← names.values?
      ["accounts", "commodities", "payees", "narrations", "tags", "links"] with
    | [accounts, commodities, payees, narrations, tags, links] =>
      return {
        errors := ← errors.list? LedgerError.ofJson?
        accounts := ← accounts.entries? some AccountRecord.ofJson?
        commodities := ← commodities.list? string?
        payees := ← payees.list? string?
        narrations := ← narrations.list? string?
        tags := ← tags.list? string?
        links := ← links.list? string?
        flagged := ← flagged.list? FlagNote.ofJson?
        automatic := ← automatic.entries? some (entries? lineNumber? (list? string?)) }
    | _ => none
  | _ => none

/-- Reads the lines of a report, each as JSON. -/
def ofLines? (lines : List String) : Option ReportData := do
  ofDocuments? (← lines.mapM JsonValue.ofText?)

/-- The four documents of a report are decoded to its data. -/
theorem ofDocuments?_reportDocuments (errors : List LedgerError) (s : Summary) :
    ofDocuments? (reportDocuments errors s) = some (of errors s) := by
  have herrors := list?_array LedgerError.ofJson?_toJson errors
  have haccounts : entries? some AccountRecord.ofJson? s.accounts.toJson =
      some s.accounts.toList :=
    entries?_object (fun _ => rfl) AccountRecord.ofJson?_toJson s.accounts.toList
  have hflagged := list?_array FlagNote.ofJson?_toJson s.flagged
  have hautomatic : entries? some (entries? lineNumber? (list? string?)) s.automatic.toJson =
      some s.automatic.entries := by
    rw [AutomaticAmounts.toJson_eq]
    exact entries?_object (fun _ => rfl) entries?_linesToJson s.automatic.entries
  rw [reportDocuments, ofDocuments?, values?_object]
  · simp only [Option.bind_eq_bind, Option.bind_some, Vocabulary.fields, List.map_cons,
      List.map_nil, herrors, haccounts, list?_strings, hflagged, hautomatic]
    rfl
  · rfl

/-- The lines of a report are its documents. -/
theorem mapM_ofText?_reportLines (errors : List LedgerError) (s : Summary) :
    (reportLines errors s).mapM JsonValue.ofText? = some (reportDocuments errors s) :=
  mapM_map_of_inverse ofText?_text (reportDocuments errors s)

/-- So are the four lines that are printed. -/
theorem ofLines?_reportLines (errors : List LedgerError) (s : Summary) :
    ofLines? (reportLines errors s) = some (of errors s) := by
  rw [ofLines?, mapM_ofText?_reportLines]
  exact ofDocuments?_reportDocuments errors s

end ReportData

/-! ## Reports that say the same -/

/-- The summaries say the same: the same records, names, notes and amounts under the same keys. -/
structure Summary.Same (s s' : Summary) : Prop where
  accounts : s.accounts.Equiv s'.accounts
  commodities : s.vocabulary.commodities.Equiv s'.vocabulary.commodities
  payees : s.vocabulary.payees.Equiv s'.vocabulary.payees
  narrations : s.vocabulary.narrations.Equiv s'.vocabulary.narrations
  tags : s.vocabulary.tags.Equiv s'.vocabulary.tags
  links : s.vocabulary.links.Equiv s'.vocabulary.links
  flagged : s.flagged = s'.flagged
  automatic : ∀ file : String,
    s.automatic[file]?.map Std.TreeMap.toList = s'.automatic[file]?.map Std.TreeMap.toList

/-- Reports have the same data exactly if their errors and their summaries say the same. -/
theorem ReportData.of_eq_of_iff (errors errors' : List LedgerError) (s s' : Summary) :
    of errors s = of errors' s' ↔ errors = errors' ∧ s.Same s' := by
  constructor
  · intro h
    injection h with herrors haccounts hcommodities hpayees hnarrations htags hlinks hflagged
      hautomatic
    exact ⟨herrors, {
      accounts := Std.TreeMap.equiv_iff_toList_eq.2 haccounts
      commodities := Std.TreeSet.equiv_iff_toList_eq.2 hcommodities
      payees := Std.TreeSet.equiv_iff_toList_eq.2 hpayees
      narrations := Std.TreeSet.equiv_iff_toList_eq.2 hnarrations
      tags := Std.TreeSet.equiv_iff_toList_eq.2 htags
      links := Std.TreeSet.equiv_iff_toList_eq.2 hlinks
      flagged := hflagged
      automatic := (AutomaticAmounts.entries_eq_iff _ _).1 hautomatic }⟩
  · rintro ⟨rfl, h⟩
    rw [of, of, h.accounts.toList_eq, h.commodities.toList_eq, h.payees.toList_eq,
      h.narrations.toList_eq, h.tags.toList_eq, h.links.toList_eq, h.flagged,
      (AutomaticAmounts.entries_eq_iff _ _).2 h.automatic]

/-- The documents say nothing about a summary but what `ReportData` takes from it. -/
theorem reportDocuments_congr {errors errors' : List LedgerError} {s s' : Summary}
    (h : ReportData.of errors s = .of errors' s') :
    reportDocuments errors s = reportDocuments errors' s' := by
  obtain ⟨rfl, hsame⟩ := (ReportData.of_eq_of_iff errors errors' s s').1 h
  have haccounts : s.accounts.toJson = s'.accounts.toJson := by
    rw [Registry.toJson, hsame.accounts.toList_eq, Registry.toJson]
  have hnames : s.vocabulary.fields = s'.vocabulary.fields := by
    rw [Vocabulary.fields, hsame.commodities.toList_eq, hsame.payees.toList_eq,
      hsame.narrations.toList_eq, hsame.tags.toList_eq, hsame.links.toList_eq, Vocabulary.fields]
  have hautomatic : s.automatic.toJson = s'.automatic.toJson := by
    rw [AutomaticAmounts.toJson_eq, (AutomaticAmounts.entries_eq_iff _ _).2 hsame.automatic,
      AutomaticAmounts.toJson_eq]
  rw [reportDocuments, reportDocuments, haccounts, hnames, hsame.flagged, hautomatic]

/-- The report on any errors and summary has four lines. None of them breaks, whatever the texts in
them are; read as JSON they tell exactly what the report was made from; and the lines of two reports
are the same only if their errors are the same and their summaries say the same. -/
theorem reportLines_decoded (errors : List LedgerError) (s : Summary) :
    (reportLines errors s).length = 4 ∧
      (∀ line ∈ reportLines errors s, '\n' ∉ line.toList ∧ '\r' ∉ line.toList) ∧
      ReportData.ofLines? (reportLines errors s) = some (.of errors s) ∧
      ∀ (errors' : List LedgerError) (s' : Summary),
        reportLines errors s = reportLines errors' s' ↔ errors = errors' ∧ s.Same s' := by
  refine ⟨rfl, ?_, ReportData.ofLines?_reportLines errors s, fun errors' s' => ?_⟩
  · intro line hline
    obtain ⟨v, _, rfl⟩ := List.mem_map.1 hline
    rw [text, String.toList_ofList]
    exact ⟨fun h => absurd (plain_toChars v _ h) (by decide),
      fun h => absurd (plain_toChars v _ h) (by decide)⟩
  · rw [← ReportData.of_eq_of_iff]
    constructor
    · intro h
      have hread := congrArg ReportData.ofLines? h
      rw [ReportData.ofLines?_reportLines, ReportData.ofLines?_reportLines] at hread
      exact Option.some.inj hread
    · intro h
      rw [reportLines, reportDocuments_congr h, reportLines]

end DoubleEntry
