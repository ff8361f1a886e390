import Std.Data.TreeMap
import DoubleEntry.Unicode.Case

/-!
# Settings

The options of a ledger. The first value of an option counts, apart from the few options that
collect all their values.

* `Settings.set`: takes in one option line, with a warning if there is something wrong with it.
* `Settings.Warning`: what can be wrong with an option line.
-/

namespace DoubleEntry

/-- The options of a ledger. -/
structure Settings where
  /-- A title for the ledger. -/
  title : Option String := none
  /-- The path of the root file. -/
  filename : Option String := none
  /-- The main currencies, in the order given. -/
  operatingCurrencies : List String := []
  /-- How lots are matched. -/
  bookingMethod : String := "STRICT"
  /-- Whether reports separate thousands. -/
  renderCommas : Bool := false
  /-- The directories of documents, in the order given. -/
  documents : List String := []
  /-- The last value of every option that has no field here. -/
  custom : Std.TreeMap String String := {}
  /-- The options given so far that may be given only once. -/
  given : List String := []

namespace Settings

/-- Something wrong with an option line. -/
inductive Warning where
  /-- No option has this name. -/
  | unknown (key : String)
  /-- The value is no booking method. -/
  | badMethod (value : String)
  /-- The value of the option is neither true nor false. -/
  | badTruth (key value : String)
  /-- The option was given before and may be given only once. -/
  | repeated (key : String)
deriving DecidableEq, Repr

/-- The code of the warning. -/
def Warning.code : Warning → String
  | unknown _ => "E7001"
  | badMethod _ | badTruth .. => "E7002"
  | repeated _ => "E7003"

/-- The words for the warning. -/
def Warning.message : Warning → String
  | unknown key => s!"Invalid option \"{key}\""
  | badMethod value => s!"Invalid booking method \"{value}\""
  | badTruth key value => s!"Invalid value \"{value}\" for option \"{key}\""
  | repeated key => s!"Option \"{key}\" can only be specified once"

/-- The names of all options. -/
def known : List String :=
  ["title", "filename", "operating_currency", "name_assets", "name_liabilities", "name_equity",
    "name_income", "name_expenses", "account_rounding", "account_previous_balances",
    "account_previous_earnings", "account_previous_conversions", "account_current_earnings",
    "account_current_conversions", "account_unrealized_gains", "conversion_currency",
    "inferred_tolerance_default", "inferred_tolerance_multiplier", "infer_tolerance_from_cost",
    "booking_method", "render_commas", "long_string_maxlines", "documents", "insert_pythonpath",
    "plugin_processing_mode"]

/-- The options that may be given several times. -/
def repeatable : List String := ["operating_currency", "insert_pythonpath", "documents"]

/-- The booking methods. -/
def bookingMethods : List String :=
  ["STRICT", "FIFO", "LIFO", "HIFO", "AVERAGE", "NONE", "STRICT_WITH_SIZE"]

/-- Reads `true` or `1`, and `false` or `0`, in any case. -/
def truth? (value : String) : Option Bool :=
  match String.ofList (value.toList.map Char.toLower) with
  | "true" | "1" => some true
  | "false" | "0" => some false
  | _ => none

/-- Stores the value under an option that has no field. -/
def setCustom (s : Settings) (key value : String) : Settings :=
  { s with custom := s.custom.insert key value }

/-- Stores the value of a known option, or tells why it cannot be used. -/
def store (s : Settings) (key value : String) : Settings × Option Warning :=
  match key with
  | "title" => ({ s with title := some value }, none)
  | "filename" => ({ s with filename := some value }, none)
  | "operating_currency" =>
    ({ s with operatingCurrencies := s.operatingCurrencies ++ [value] }, none)
  | "documents" => ({ s with documents := s.documents ++ [value] }, none)
  | "booking_method" =>
    let method := Unicode.toCapitals value
    if method ∈ bookingMethods then ({ s with bookingMethod := method }, none)
    else (s, some (.badMethod value))
  | "render_commas" =>
    match truth? value with
    | some b => ({ s with renderCommas := b }, none)
    | none => (s, some (.badTruth key value))
  | _ => (s.setCustom key value, none)

/-- Takes in an option line. An unknown option is stored all the same, and an option that may be
given once counts as given even if its value cannot be used. -/
def set (s : Settings) (key value : String) : Settings × Option Warning :=
  if key ∉ known then (s.setCustom key value, some (.unknown key))
  else if key ∈ repeatable then s.store key value
  else if key ∈ s.given then (s, some (.repeated key))
  else { s with given := key :: s.given }.store key value

end Settings

end DoubleEntry
