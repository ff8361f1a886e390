import DoubleEntry.Proofs.Ends
import DoubleEntry.Proofs.LoadOrder
import DoubleEntry.Proofs.Sample
import DoubleEntry.Settings

/-!
# What settings tell of the option lines

The option lines of all files set the settings one after the other. Of an option that may be given
only once the first value counts, even if it cannot be used. The others keep all their values, or
the last.

* `Settings.IsPart`: where an option stores its values; `IsPart.setAll` follows it through a run.
* `Settings.Tells`: the settings as a whole, after a run.
* `Settings.code_set`: the warning for one more option line.
* `load_settings`: the settings of a ledger are those of the option lines of its files.
-/

namespace DoubleEntry

namespace Settings

variable {s : Settings} {calls more : List (String × String)} {call : String × String}
  {key value k : String}

/-- Takes in option lines, each a name with a value, one after the other. -/
def setAll (s : Settings) (calls : List (String × String)) : Settings :=
  calls.foldl (fun s call => (s.set call.1 call.2).1) s

/-- The warnings for option lines that are taken in one after the other. -/
def warnings (s : Settings) : List (String × String) → List Warning
  | [] => []
  | call :: calls => (s.set call.1 call.2).2.toList ++ (s.set call.1 call.2).1.warnings calls

/-- The values that option lines give an option, in their order. -/
def valuesOf (k : String) (calls : List (String × String)) : List String :=
  (calls.filter (·.1 = k)).map (·.2)

/-- Whether an option may be given only once. -/
def IsOnce (k : String) : Prop := k ∈ known ∧ k ∉ repeatable

instance (k : String) : Decidable (IsOnce k) := inferInstanceAs (Decidable (_ ∧ _))

/-- The options that have a field of their own. -/
def withField : List String :=
  ["title", "filename", "operating_currency", "documents", "booking_method", "render_commas"]

/-- The booking method that a value names, in any case. -/
def method? (value : String) : Option String :=
  if Unicode.toCapitals value ∈ bookingMethods then some (Unicode.toCapitals value) else none

/-- Whether an option can use a value. -/
def isUsable (key value : String) : Bool :=
  match key with
  | "booking_method" => (method? value).isSome
  | "render_commas" => (truth? value).isSome
  | _ => true

theorem setAll_append (s : Settings) (calls more : List (String × String)) :
    s.setAll (calls ++ more) = (s.setAll calls).setAll more := List.foldl_append

theorem setAll_concat (s : Settings) (calls : List (String × String)) (call : String × String) :
    s.setAll (calls ++ [call]) = ((s.setAll calls).set call.1 call.2).1 :=
  setAll_append s calls [call]

/-- Later option lines are warned about as the settings are by then. -/
theorem warnings_append (s : Settings) (calls more : List (String × String)) :
    s.warnings (calls ++ more) = s.warnings calls ++ (s.setAll calls).warnings more := by
  induction calls generalizing s with
  | nil => rfl
  | cons call calls ih =>
    rw [List.cons_append, warnings, ih, warnings, List.append_assoc]
    rfl

theorem valuesOf_concat (k : String) (calls : List (String × String)) (call : String × String) :
    valuesOf k (calls ++ [call]) =
      if call.1 = k then valuesOf k calls ++ [call.2] else valuesOf k calls := by
  by_cases h : call.1 = k <;> simp [valuesOf, h]

/-! ## One option line -/

/-- Where a value goes. One that cannot be used goes nowhere. -/
theorem fst_store (s : Settings) (key value : String) : (s.store key value).1 = { s with
    title := if key = "title" then some value else s.title
    filename := if key = "filename" then some value else s.filename
    operatingCurrencies :=
      if key = "operating_currency" then s.operatingCurrencies ++ [value]
      else s.operatingCurrencies
    documents := if key = "documents" then s.documents ++ [value] else s.documents
    bookingMethod :=
      if key = "booking_method" then (method? value).getD s.bookingMethod else s.bookingMethod
    renderCommas :=
      if key = "render_commas" then (truth? value).getD s.renderCommas else s.renderCommas
    custom := if key ∈ withField then s.custom else s.custom.insert key value } := by
  unfold store
  split
  · simp [withField]
  · simp [withField]
  · simp [withField]
  · simp [withField]
  · by_cases h : Unicode.toCapitals value ∈ bookingMethods <;> simp [method?, h, withField]
  · cases h : truth? value <;> simp [withField]
  · simp_all [withField, setCustom]

/-- Storing a value does not mark its option as given; that is done when the line is taken in. -/
theorem given_store (s : Settings) (key value : String) :
    (s.store key value).1.given = s.given := by rw [fst_store]

/-- An option that may be given several times, or is no option, is always stored. -/
theorem fst_set_of_not_isOnce (h : ¬IsOnce key) : (s.set key value).1 = (s.store key value).1 := by
  unfold set
  split
  · next hunknown =>
    unfold store
    split <;> first | exact absurd (by decide) hunknown | rfl
  · next hknown =>
    rw [if_pos (by_contra fun hrepeatable => h ⟨not_not.1 hknown, hrepeatable⟩)]

theorem set_of_isOnce (h : IsOnce key) :
    s.set key value = if key ∈ s.given then (s, some (.repeated key))
      else { s with given := key :: s.given }.store key value := by
  rw [set, if_neg (not_not.2 h.1), if_neg h.2]

/-- A line marks its option as given if the option may be given once only. -/
theorem mem_given_set :
    k ∈ (s.set key value).1.given ↔ (IsOnce k ∧ key = k) ∨ k ∈ s.given := by
  by_cases h : IsOnce key
  · rw [set_of_isOnce h]
    split
    · next hgiven =>
      refine (or_iff_right_of_imp ?_).symm
      rintro ⟨-, rfl⟩
      exact hgiven
    · rw [given_store, List.mem_cons, eq_comm (a := k)]
      refine or_congr_left (iff_and_self.2 ?_)
      rintro rfl
      exact h
  · rw [fst_set_of_not_isOnce h, given_store]
    refine (or_iff_right_of_imp ?_).symm
    rintro ⟨hk, rfl⟩
    exact absurd hk h

/-! ## One part of the settings -/

/-- A part of the settings that an option changes with each value that it stores, and no other
option does. -/
structure IsPart {α : Type} (part : Settings → α) (k : String) (put : α → String → α) : Prop where
  store : ∀ (s : Settings) (key value : String),
    part (s.store key value).1 = if key = k then put (part s) value else part s
  given : ∀ (s : Settings) (given : List String), part { s with given } = part s

namespace IsPart

variable {α : Type} {part : Settings → α} {put : α → String → α}

/-- A line changes the part of its own option, unless that was given before and counts once. -/
theorem set (h : IsPart part k put) (s : Settings) (key value : String) :
    part (s.set key value).1 =
      if key = k ∧ ¬(IsOnce k ∧ k ∈ s.given) then put (part s) value else part s := by
  by_cases honce : IsOnce key
  · rw [set_of_isOnce honce]
    by_cases hgiven : key ∈ s.given
    · rw [if_pos hgiven, if_neg]
      rintro ⟨rfl, hnot⟩
      exact hnot ⟨honce, hgiven⟩
    · rw [if_neg hgiven, h.store, h.given]
      refine if_congr (iff_self_and.2 ?_) rfl rfl
      rintro rfl
      exact fun hcounted => hgiven hcounted.2
  · rw [fst_set_of_not_isOnce honce, h.store]
    refine if_congr (iff_self_and.2 ?_) rfl rfl
    rintro rfl
    exact fun hcounted => honce hcounted.1

end IsPart

theorem mem_given_setAll (hs : s.given = []) :
    k ∈ (s.setAll calls).given ↔ IsOnce k ∧ valuesOf k calls ≠ [] := by
  induction calls using List.reverseRecOn with
  | nil => simp [setAll, hs, valuesOf]
  | append_singleton calls call ih =>
    rw [setAll_concat, mem_given_set, ih, valuesOf_concat]
    by_cases h : call.1 = k
    · simpa [h] using fun honce _ => honce
    · simp [h]

/-- After a run, an option has put in its first value if it may be given only once, and otherwise
all its values. -/
theorem IsPart.setAll {α : Type} {part : Settings → α} {put : α → String → α}
    (h : IsPart part k put) (hs : s.given = []) (calls : List (String × String)) :
    part (s.setAll calls) =
      (if IsOnce k then (valuesOf k calls).take 1 else valuesOf k calls).foldl put (part s) := by
  induction calls using List.reverseRecOn with
  | nil => simp [Settings.setAll, valuesOf]
  | append_singleton calls call ih =>
    rw [setAll_concat, h.set, ih, valuesOf_concat]
    simp only [mem_given_setAll hs]
    by_cases hk : call.1 = k
    · by_cases honce : IsOnce k
      · cases hvalues : valuesOf k calls <;> simp [hk, honce]
      · simp [hk, honce]
    · simp [hk]

/-! ## The settings as a whole -/

/-- What settings tell of the option lines that have set them, where `file` was the name of the file
before. -/
structure Tells (file : Option String) (calls : List (String × String)) (s : Settings) : Prop where
  title : s.title = (valuesOf "title" calls).head?
  filename : s.filename = (valuesOf "filename" calls).head?.or file
  operatingCurrencies : s.operatingCurrencies = valuesOf "operating_currency" calls
  documents : s.documents = valuesOf "documents" calls
  /-- The first value counts, so one that cannot be used leaves the default. -/
  bookingMethod :
    s.bookingMethod = ((valuesOf "booking_method" calls).head?.bind method?).getD "STRICT"
  renderCommas : s.renderCommas = ((valuesOf "render_commas" calls).head?.bind truth?).getD false
  custom_first : ∀ k, IsOnce k → k ∉ withField → s.custom[k]? = (valuesOf k calls).head?
  /-- Of an unknown option the last value is kept. -/
  custom_last : ∀ k, ¬IsOnce k → k ∉ withField → s.custom[k]? = (valuesOf k calls).getLast?
  custom_none : ∀ k ∈ withField, s.custom[k]? = none

theorem foldl_append_singleton {α : Type} (l before : List α) :
    l.foldl (fun before a => before ++ [a]) before = before ++ l := by
  rw [List.foldl_append_eq_append, ← List.flatMap_def, List.flatMap_singleton']

theorem foldl_some {α : Type} (l : List α) (before : Option α) :
    l.foldl (fun _ a => some a) before = l.getLast?.or before := by
  induction l using List.reverseRecOn with
  | nil => simp
  | append_singleton l a ih => simp

/-- The settings after some option lines are told from the values that these give. -/
theorem tells_setAll (file : Option String) (calls : List (String × String)) :
    Tells file calls (setAll { filename := file } calls) := by
  have htitle : IsPart (·.title) "title" fun _ value => some value :=
    ⟨fun s key value => by rw [fst_store], fun _ _ => rfl⟩
  have hfilename : IsPart (·.filename) "filename" fun _ value => some value :=
    ⟨fun s key value => by rw [fst_store], fun _ _ => rfl⟩
  have hcurrencies : IsPart (·.operatingCurrencies) "operating_currency"
      fun before value => before ++ [value] :=
    ⟨fun s key value => by rw [fst_store], fun _ _ => rfl⟩
  have hdocuments : IsPart (·.documents) "documents" fun before value => before ++ [value] :=
    ⟨fun s key value => by rw [fst_store], fun _ _ => rfl⟩
  have hmethod : IsPart (·.bookingMethod) "booking_method"
      fun before value => (method? value).getD before :=
    ⟨fun s key value => by rw [fst_store], fun _ _ => rfl⟩
  have hcommas : IsPart (·.renderCommas) "render_commas"
      fun before value => (truth? value).getD before :=
    ⟨fun s key value => by rw [fst_store], fun _ _ => rfl⟩
  have hcustom (k : String) : IsPart (·.custom[k]?) k
      fun before value => if k ∈ withField then before else some value := by
    refine ⟨fun s key value => ?_, fun _ _ => rfl⟩
    rw [fst_store]
    by_cases h : key = k
    · by_cases hk : k ∈ withField <;> simp [h, hk]
    · by_cases hkey : key ∈ withField <;> simp [h, hkey, Std.TreeMap.getElem?_insert]
  constructor
  · rw [htitle.setAll rfl, if_pos (by decide)]
    cases valuesOf "title" calls <;> simp
  · rw [hfilename.setAll rfl, if_pos (by decide)]
    cases valuesOf "filename" calls <;> simp
  · rw [hcurrencies.setAll rfl, if_neg (by decide), foldl_append_singleton, List.nil_append]
  · rw [hdocuments.setAll rfl, if_neg (by decide), foldl_append_singleton, List.nil_append]
  · rw [hmethod.setAll rfl, if_pos (by decide)]
    cases valuesOf "booking_method" calls <;> simp
  · rw [hcommas.setAll rfl, if_pos (by decide)]
    cases valuesOf "render_commas" calls <;> simp
  · intro k honce hk
    rw [(hcustom k).setAll rfl, if_pos honce]
    cases valuesOf k calls <;> simp [hk]
  · intro k honce hk
    rw [(hcustom k).setAll rfl, if_neg honce]
    simp [hk, foldl_some]
  · intro k hk
    rw [(hcustom k).setAll rfl]
    simp [hk]

theorem isUsable_of_mem_repeatable (h : key ∈ repeatable) (value : String) :
    isUsable key value := by
  simp only [repeatable, List.mem_cons, List.not_mem_nil, or_false] at h
  rcases h with rfl | rfl | rfl <;> simp [isUsable]

/-- The code of the warning for an option line. -/
theorem code_set (s : Settings) (key value : String) :
    (s.set key value).2.map Warning.code =
      if key ∉ known then some "E7001"
      else if key ∈ repeatable then none
      else if key ∈ s.given then some "E7003"
      else if isUsable key value then none else some "E7002" := by
  have hstore (s : Settings) (hknown : key ∈ known) : (s.store key value).2.map Warning.code =
      if isUsable key value then none else some "E7002" := by
    unfold store isUsable
    split
    · simp
    · simp
    · simp
    · simp
    · by_cases h : Unicode.toCapitals value ∈ bookingMethods <;> simp [method?, h, Warning.code]
    · cases h : truth? value <;> simp [Warning.code]
    · simp
  unfold set
  split
  · rfl
  · next hknown =>
    rw [not_not] at hknown
    split
    · next hrepeatable =>
      rw [hstore s hknown, if_pos (isUsable_of_mem_repeatable hrepeatable value)]
    · split
      · rfl
      · exact hstore _ hknown

end Settings

/-! ## The settings of a ledger -/

/-- The option lines of a file, each with its name and its value. -/
def Source.optionCalls (source : Source) : List (String × String) :=
  ((Journal.ofText source.text).value?.elim [] Journal.options).map fun o => (o.key, o.value)

/-- The warning about an option line, if the problem is one. -/
def LoadProblem.warning? (p : LoadProblem) : Option Settings.Warning :=
  match p.cause with
  | .setting w => some w
  | _ => none

namespace Loaded

variable {start : Settings} {s s' s'' : Loaded} {calls more : List (String × String)}

/-- The option lines of all files that were read, in their order. -/
def optionCalls (s : Loaded) : List (String × String) := s.sources.flatMap Source.optionCalls

/-- The warnings about option lines. -/
def warnings (s : Loaded) : List Settings.Warning := s.problems.filterMap (·.warning?)

/-- Some option lines have been taken in, and no file. -/
structure Takes (calls : List (String × String)) (s s' : Loaded) : Prop where
  sources : s'.sources = s.sources
  settings : s'.settings = s.settings.setAll calls
  warnings : s'.warnings = s.warnings ++ s.settings.warnings calls

theorem Takes.trans (h : Takes calls s s') (h' : Takes more s' s'') :
    Takes (calls ++ more) s s'' where
  sources := h'.sources.trans h.sources
  settings := by rw [h'.settings, h.settings, Settings.setAll_append]
  warnings := by
    rw [h'.warnings, h.warnings, h.settings, Settings.warnings_append, List.append_assoc]

/-- A problem that is not about an option line changes no settings. -/
theorem takes_note {cause : LoadProblem.Cause} {location : Location}
    (h : LoadProblem.warning? ⟨cause, location⟩ = none) :
    Takes [] s (s.note cause location) :=
  ⟨rfl, rfl, by simp [warnings, note, h, Settings.warnings]⟩

theorem takes_addOption (s : Loaded) (o : OptionLine) (location : Location) :
    Takes [(o.key, o.value)] s (s.addOption o location) := by
  unfold addOption
  cases hset : s.settings.set o.key o.value with
  | mk settings warning =>
    cases warning <;>
      constructor <;> simp [Settings.setAll, Settings.warnings, hset, warnings, note,
        LoadProblem.warning?]

theorem takes_foldl {α : Type} {f : Loaded → α → Loaded} {call : α → List (String × String)}
    (hf : ∀ s a, Takes (call a) s (f s a)) (l : List α) (s : Loaded) :
    Takes (l.flatMap call) s (l.foldl f s) := by
  induction l generalizing s with
  | nil => exact ⟨rfl, rfl, by simp [Settings.warnings]⟩
  | cons a l ih => exact (hf s a).trans (ih (f s a))

/-- All option lines of the files that were read have been taken in. -/
structure HasTaken (start : Settings) (s : Loaded) : Prop where
  settings : s.settings = start.setAll s.optionCalls
  warnings : s.warnings = start.warnings s.optionCalls

theorem HasTaken.takes (h : s.HasTaken start) (ht : Takes [] s s') : s'.HasTaken start := by
  have hcalls : s'.optionCalls = s.optionCalls := by rw [optionCalls, ht.sources]; rfl
  refine ⟨?_, ?_⟩
  · rw [hcalls, ht.settings, h.settings]
    rfl
  · rw [hcalls, ht.warnings, h.warnings, Settings.warnings, List.append_nil]

/-- A file adds its option lines to those taken in. -/
theorem HasTaken.addFile (h : s.HasTaken start) (path : String) {text : String} {journal : Journal}
    (hjournal : (Journal.ofText text).value? = some journal) :
    (s.addFile path text journal).HasTaken start := by
  let calls := journal.options.map fun o => (o.key, o.value)
  -- The file first leaves the settings as they are.
  let read : Loaded := { s with
    sources := s.sources ++ [⟨path, text⟩]
    plugins := s.plugins ++ journal.plugins.map (⟨·, s.sources.length⟩)
    directives := s.directives ++ journal.directives.map (·.value.inFile path) }
  have htakes : Takes calls read (s.addFile path text journal) := by
    have hcalls : calls = journal.errors.flatMap (fun _ => []) ++
        journal.options.flatMap fun o => [(o.key, o.value)] := by
      rw [← List.map_eq_flatMap, List.flatMap_eq_nil_iff.2 fun _ _ => rfl, List.nil_append]
    rw [hcalls]
    refine Takes.trans (takes_foldl (fun s e => ?_) journal.errors read)
      (takes_foldl (fun s o => ?_) journal.options _)
    · exact takes_note rfl
    · exact takes_addOption s o _
  have hcalls : (s.addFile path text journal).optionCalls = s.optionCalls ++ calls := by
    have hsource : Source.optionCalls ⟨path, text⟩ = calls := by
      rw [Source.optionCalls, hjournal]
      rfl
    rw [optionCalls, htakes.sources, List.flatMap_append, List.flatMap_singleton, hsource]
    rfl
  have hsettings : read.settings = start.setAll s.optionCalls := h.settings
  have hwarnings : read.warnings = start.warnings s.optionCalls := h.warnings
  constructor
  · rw [hcalls, htakes.settings, hsettings, Settings.setAll_append]
  · rw [hcalls, htakes.warnings, hwarnings, hsettings, Settings.warnings_append]

end Loaded

section Loading

variable {files : Files} {root : String} {start : Settings}

/-- Loading a file takes in the option lines of all files that it reads. -/
theorem loadFile_hasTaken (above : List String) (path : String) (s : Loaded) :
    (loadFile files above path s).Ends (fun r => s.HasTaken start → r.1.HasTaken start)
      fun _ => True :=
  loadFile_relates (R := fun s s' => s.HasTaken start → s'.HasTaken start) (fun _ => id)
    (fun _ _ _ h h' => h' ∘ h) (fun _ path _ _ hjournal h => h.addFile path hjournal)
    (fun _ _ _ _ _ _ _ _ _ h => h.takes (Loaded.takes_note rfl)) above path s

/-- The settings of a ledger are those of the option lines of its files. -/
theorem load_settings {loaded : Loaded} (h : (load files root).run.value? = some (.ok loaded)) :
    ∃ path, files.resolve root = .ok path ∧
      loaded.HasTaken { filename := some path } := by
  obtain ⟨path, hroot, -⟩ := readable_of_load h
  refine ⟨path, hroot, ?_⟩
  rw [load_run hroot, Checked.value?_bind, Option.bind_eq_some_iff] at h
  obtain ⟨⟨last, failure⟩, hload, h⟩ := h
  have hstart : Loaded.HasTaken { filename := some path }
      { settings := { filename := some path } } := ⟨rfl, rfl⟩
  cases failure with
  | none =>
    cases h
    exact (loadFile_hasTaken [] path _).of_value? hload hstart
  | some f => cases h

/-- **The first value of an option counts, across all files.** After any option lines, the settings
are those of the first value of each option that may be given only once, if it can be used, and of
all values of the others. One more line has a warning if it names no option, repeats an option, or
is the first with a value that cannot be used; a repeated option changes nothing. The settings of a
ledger come from the lines of its files, one after the other, and its problems show their
warnings. -/
theorem first_value_counts :
    (∀ (file : Option String) (before : List (String × String)) (key value : String),
      let s := Settings.setAll { filename := file } before
      s.Tells file before ∧
      (s.set key value).2.map Settings.Warning.code =
        (if key ∉ Settings.known then some "E7001"
        else if key ∈ Settings.repeatable then none
        else if Settings.valuesOf key before ≠ [] then some "E7003"
        else if Settings.isUsable key value then none else some "E7002") ∧
      (Settings.IsOnce key → Settings.valuesOf key before ≠ [] → (s.set key value).1 = s)) ∧
    ∀ (files : Files) (root : String) (loaded : Loaded),
      (load files root).run.value? = some (.ok loaded) → ∃ path, files.resolve root = .ok path ∧
        loaded.settings = Settings.setAll { filename := some path } loaded.optionCalls ∧
        loaded.warnings = Settings.warnings { filename := some path } loaded.optionCalls := by
  refine ⟨fun file before key value => ⟨Settings.tells_setAll file before, ?_, ?_⟩, ?_⟩
  · rw [Settings.code_set]
    split
    · rfl
    · next hknown =>
      split
      · rfl
      · next hrepeatable =>
        have honce : Settings.IsOnce key := ⟨not_not.1 hknown, hrepeatable⟩
        simp only [Settings.mem_given_setAll, honce, true_and]
  · intro honce hbefore
    rw [Settings.set_of_isOnce honce, if_pos ((Settings.mem_given_setAll rfl).2 ⟨honce, hbefore⟩)]
  · intro files root loaded h
    obtain ⟨path, hroot, hsettings, hwarnings⟩ := load_settings h
    exact ⟨path, hroot, hsettings, hwarnings⟩

/-- Two files that set the same options. -/
def twoFiles : Files where
  resolve path := .ok path
  texts := [
    ("/main", "option \"booking_method\" \"RANDOM\"\n" ++
      "include \"other\"\noption \"title\" \"One\"\n"),
    ("/other", "option \"booking_method\" \"fifo\"\noption \"title\" \"Two\"\n" ++
      "option \"colour\" \"blue\"\noption \"colour\" \"red\"\n")]
  failure _ := .notFound

/-- The method that cannot be used stands in the way of the one that could be. -/
theorem first_value_counts_twoFiles :
    ∃ loaded, (load twoFiles "/main").run.value? = some (.ok loaded) ∧
      loaded.settings.title = some "One" ∧ loaded.settings.bookingMethod = "STRICT" ∧
      loaded.settings.custom.toList = [("colour", "red")] ∧
      loaded.warnings.map Settings.Warning.code = ["E7002", "E7003", "E7003", "E7001", "E7001"] ∧
      (∃ path, twoFiles.resolve "/main" = .ok path ∧
        loaded.settings = Settings.setAll { filename := some path } loaded.optionCalls ∧
        loaded.warnings = Settings.warnings { filename := some path } loaded.optionCalls) ∧
      let first := Settings.setAll {} [("title", "One")]
      Settings.IsOnce "title" ∧ Settings.valuesOf "title" [("title", "One")] ≠ [] ∧
        (first.set "title" "Two").1 = first := by
  obtain ⟨loaded, hload, htitle, hmethod, hcustom, hcodes⟩ :
      ∃ loaded, (load twoFiles "/main").run.value? = some (.ok loaded) ∧
        loaded.settings.title = some "One" ∧ loaded.settings.bookingMethod = "STRICT" ∧
        loaded.settings.custom.toList = [("colour", "red")] ∧
        loaded.warnings.map Settings.Warning.code =
          ["E7002", "E7003", "E7003", "E7001", "E7001"] :=
    exists_of_any (by decide +kernel)
  obtain ⟨hcalls, hload'⟩ := first_value_counts
  obtain ⟨-, -, hsame⟩ := hcalls none [("title", "One")] "title" "Two"
  have honce : Settings.IsOnce "title" := by decide
  have hbefore : Settings.valuesOf "title" [("title", "One")] ≠ [] := by decide
  exact ⟨loaded, hload, htitle, hmethod, hcustom, hcodes, hload' twoFiles "/main" loaded hload,
    honce, hbefore, hsame honce hbefore⟩

end Loading

end DoubleEntry
