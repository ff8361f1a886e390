import DoubleEntry.Account
import DoubleEntry.Amount
import DoubleEntry.Date

/-!
# Metadata

Directives and postings carry values under keys of the user's choice. Three keys are reserved: where
the item was written (`lineno`, `filename`), and whether its amount was filled in (`__automatic__`).

* `Metadata.get?`, `Metadata.insert`: a key has at most one value, the one inserted last.
* `Metadata.location?`: the place that the reserved keys name.
-/

namespace DoubleEntry

/-- A value of a metadata entry or of a custom directive. -/
inductive MetaValue where
  | string (s : String)
  | account (a : Account)
  | currency (c : Currency)
  | tag (t : String)
  | link (l : String)
  | date (d : Date)
  | number (n : Decimal)
  | bool (b : Bool)
  | amount (a : Amount)
  /-- No value was written. -/
  | null
deriving DecidableEq, Repr

namespace MetaValue

/-- The value as text. -/
def text : MetaValue → String
  | string s => s!"\"{s}\""
  | account a => a
  | currency c => c
  | tag t => s!"#{t}"
  | link l => s!"^{l}"
  | date d => d.text
  | number n => n.text
  | bool true => "TRUE"
  | bool false => "FALSE"
  | amount a => a.text
  | null => "None"

end MetaValue

/-- A line of a file. -/
structure Location where
  /-- The path of the file, empty if the text came from none. -/
  file : String
  /-- The line, from 1. -/
  line : Nat
deriving DecidableEq, Repr

/-- Values under distinct keys. -/
structure Metadata where
  /-- The keys with their values, in the order in which the keys came. -/
  entries : List (String × MetaValue) := []
deriving DecidableEq, Repr

namespace Metadata

/-- The value under a key. -/
def get? (m : Metadata) (key : String) : Option MetaValue := m.entries.lookup key

/-- Puts a value under a key, in place of the one that may be there. -/
def insert (m : Metadata) (key : String) (value : MetaValue) : Metadata :=
  ⟨go m.entries⟩
where
  /-- Replaces the first entry of the key, or appends one. -/
  go : List (String × MetaValue) → List (String × MetaValue)
    | [] => [(key, value)]
    | e :: rest => if e.1 = key then (key, value) :: rest else e :: go rest

/-- Puts a value under a key unless there is one. -/
def insertIfNew (m : Metadata) (key : String) (value : MetaValue) : Metadata :=
  if (m.get? key).isSome then m else m.insert key value

/-- A lookup past one entry. -/
theorem lookup_entry (key k : String) (v : MetaValue) (l : List (String × MetaValue)) :
    ((k, v) :: l).lookup key = if key = k then some v else l.lookup key := by
  rw [List.lookup_cons]
  by_cases h : key = k
  · rw [if_pos h, beq_iff_eq.2 h]
  · rw [if_neg h, beq_false_of_ne h]

theorem lookup_insert_go (key key' : String) (value : MetaValue)
    (l : List (String × MetaValue)) :
    (insert.go key value l).lookup key' = if key' = key then some value else l.lookup key' := by
  induction l with
  | nil => exact lookup_entry key' key value []
  | cons e rest ih =>
    obtain ⟨k, v⟩ := e
    by_cases hk : k = key
    · simp only [insert.go, hk, if_true, lookup_entry]
      by_cases h : key' = key <;> simp [h]
    · simp only [insert.go, hk, if_false, lookup_entry, ih]
      by_cases h : key' = key
      · have : ¬key' = k := fun h' => hk (h'.symm.trans h)
        simp [h, Ne.symm hk]
      · simp [h]

theorem get?_insert (m : Metadata) (key key' : String) (value : MetaValue) :
    (m.insert key value).get? key' = if key' = key then some value else m.get? key' :=
  lookup_insert_go key key' value m.entries

/-! ## Reserved keys -/

/-- The key of the line number. -/
def lineKey : String := "lineno"

/-- The key of the file name. -/
def fileKey : String := "filename"

/-- The key that marks an amount filled in by interpolation. -/
def automaticKey : String := "__automatic__"

/-- Records the line. A line number that no decimal can hold is left out. -/
def setLine (m : Metadata) (line : Nat) : Metadata :=
  match Decimal.ofNat? line with
  | some n => m.insert lineKey (.number n)
  | none => m

/-- Records the file. -/
def setFile (m : Metadata) (file : String) : Metadata := m.insert fileKey (.string file)

/-- Marks an amount as filled in. -/
def setAutomatic (m : Metadata) : Metadata := m.insert automaticKey (.bool true)

/-- Whether the amount was filled in. -/
def isAutomatic (m : Metadata) : Bool := m.get? automaticKey == some (.bool true)

/-- The place where the item was written, if its line is known. -/
def location? (m : Metadata) : Option Location :=
  match m.get? lineKey with
  | some (.number n) => do
    let line ← n.toUInt64Value?
    let file := match m.get? fileKey with
      | some (.string s) => s
      | _ => ""
    return ⟨file, line⟩
  | _ => none

end Metadata

end DoubleEntry
