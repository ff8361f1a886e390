import DoubleEntry.Ledger
import DoubleEntry.Proofs.Journal.Lines
import DoubleEntry.Proofs.LoadOrder
import DoubleEntry.Proofs.Padding.Run
import DoubleEntry.Proofs.Sample
import DoubleEntry.Proofs.Validation

/-!
# Where errors are reported

Every error of a ledger names a file that was loaded and one of its lines.

* `Metadata.Records`: the place that metadata names, whatever a user wrote or pushed into it.
* `loadFile_located`: what is loaded, and what is wrong with it, has a place in the loaded files.
* `Ledger.errors_located`: so has what goes wrong afterwards.
-/

namespace DoubleEntry

/-! ## Places -/

/-- Whether one of the files is the one that a location names, and has the line. -/
def Sources.Has (sources : Sources) (location : Location) : Prop :=
  ∃ source ∈ sources, source.path = location.file ∧ source.HasLine location.line

theorem Sources.Has.of_subset {sources sources' : Sources} {location : Location}
    (h : sources.Has location) (hsub : sources ⊆ sources') : sources'.Has location := by
  obtain ⟨source, hsource, hplace⟩ := h
  exact ⟨source, hsub hsource, hplace⟩

namespace Metadata

/-- The line and then the file of a location were recorded, after whatever else. -/
def Records (m : Metadata) (location : Location) : Prop :=
  ∃ base : Metadata, m = (base.setLine location.line).setFile location.file

variable {m : Metadata} {location : Location}

theorem get?_setLine (m : Metadata) {line : Nat} (h : line < 2 ^ 64) :
    ∃ n : Decimal, (m.setLine line).get? lineKey = some (.number n) ∧
      n.toUInt64Value? = some line ∧ n.value = line := by
  have hlimit : line < Decimal.limit := Nat.lt_trans h (by decide +kernel)
  refine ⟨⟨false, line, 0, hlimit, Nat.zero_le _⟩, ?_, ?_, ?_⟩
  · have hofNat : Decimal.ofNat? line = some ⟨false, line, 0, hlimit, Nat.zero_le _⟩ :=
      dif_pos ⟨hlimit, Nat.zero_le _⟩
    rw [setLine, hofNat]
    simp only [get?_insert, if_true]
  · have hle : ¬Nat.pow 2 64 ≤ line := Nat.not_le.2 h
    simp [Decimal.toUInt64Value?, Decimal.tenPow, hle]
  · simp [Decimal.value, Decimal.signed]

/-- The recorded place is the one that the metadata names. -/
theorem Records.location?_eq (h : m.Records location) (hline : location.line < 2 ^ 64) :
    m.location? = some location := by
  obtain ⟨base, rfl⟩ := h
  obtain ⟨n, hget, hn, -⟩ := base.get?_setLine hline
  have hne : lineKey ≠ fileKey := by decide
  simp [location?, setFile, get?_insert, hne, hget, hn]

end Metadata

/-- Whether the place that metadata records is in one of the files. -/
def Sources.HasPlaceOf (sources : Sources) (m : Metadata) : Prop :=
  ∃ location, sources.Has location ∧ m.Records location

theorem Sources.HasPlaceOf.of_subset {sources sources' : Sources} {m : Metadata}
    (h : sources.HasPlaceOf m) (hsub : sources ⊆ sources') : sources'.HasPlaceOf m := by
  obtain ⟨location, hhas, hrecords⟩ := h
  exact ⟨location, hhas.of_subset hsub, hrecords⟩

/-! ## Loading -/

namespace Loaded

variable {s : Loaded} {sources : Sources} {cause : LoadProblem.Cause} {location : Location}

/-- All problems have a place in some files, and all directives record one. -/
structure LocatedIn (s : Loaded) (sources : Sources) : Prop where
  problems : ∀ p ∈ s.problems, sources.Has p.location
  directives : ∀ d ∈ s.directives, sources.HasPlaceOf d.metadata

/-- All problems and all directives have a place in the loaded files. -/
def Located (s : Loaded) : Prop := s.LocatedIn s.sources

namespace LocatedIn

theorem note (h : s.LocatedIn sources) (hplace : sources.Has location) :
    (s.note cause location).LocatedIn sources := by
  refine ⟨fun p hp => ?_, h.directives⟩
  rcases List.mem_append.1 hp with hp | hp
  · exact h.problems p hp
  · obtain rfl := List.mem_singleton.1 hp
    exact hplace

theorem addOption (h : s.LocatedIn sources) (o : OptionLine) (hplace : sources.Has location) :
    (s.addOption o location).LocatedIn sources := by
  unfold Loaded.addOption
  obtain ⟨settings, warning⟩ := s.settings.set o.key o.value
  have hset : LocatedIn { s with settings } sources := ⟨h.problems, h.directives⟩
  cases warning with
  | none => exact hset
  | some w => exact hset.note hplace

end LocatedIn

/-- What a file says itself is located in it. -/
theorem Located.addFile (h : s.Located) (source : Source) {journal : Journal}
    (hjournal : (Journal.ofText source.text).value? = some journal) :
    (s.addFile source.path source.text journal).Located := by
  have hsub : s.sources ⊆ s.sources ++ [source] := List.subset_append_left _ _
  have hplace (i : Item) (hi : i ∈ journal.items) :
      Sources.Has (s.sources ++ [source]) ⟨source.path, source.lineOf i.span⟩ :=
    ⟨source, by simp, rfl, Journal.hasLine_of_mem_items hjournal hi⟩
  rw [Located, sources_addFile]
  refine addFile_induction (P := (·.LocatedIn (s.sources ++ [source]))) source
    ⟨fun p hp => (h.problems p hp).of_subset hsub, fun d hd => ?_⟩ ?_ ?_
  · rcases List.mem_append.1 hd with hd | hd
    · exact (h.directives d hd).of_subset hsub
    · obtain ⟨p, hp, rfl⟩ := List.mem_map.1 hd
      obtain ⟨m, hm⟩ := Journal.metadata_of_mem_directives hjournal hp
      exact ⟨_, hplace (.directive p) (Journal.mem_items_of_directive hp), m,
        congrArg (·.setFile source.path) hm⟩
  · exact fun e he s' hs' => hs'.note (hplace (.error e) (Journal.mem_items_of_error he))
  · exact fun o ho s' hs' => hs'.addOption o (hplace (.option o) (Journal.mem_items_of_option ho))

end Loaded

section Loading

variable {files : Files} {root : String} {s s' : Loaded}

/-- The files read before stay, and all keeps having its place. -/
def Loaded.Keeps (s s' : Loaded) : Prop := s.sources ⊆ s'.sources ∧ (s.Located → s'.Located)

/-- Loading a file keeps what was loaded, and what it adds has its place. -/
theorem loadFile_located (above : List String) (path : String) (s : Loaded) :
    (loadFile files above path s).Ends (fun r => s.Keeps r.1) fun _ => True := by
  refine loadFile_relates (R := Loaded.Keeps) (fun s => ⟨List.Subset.refl _, id⟩)
    (fun s s' s'' h h' => ⟨List.Subset.trans h.1 h'.1, h'.2 ∘ h.2⟩)
    (fun s path text journal hjournal => ⟨?_, fun h => h.addFile ⟨path, text⟩ hjournal⟩)
    (fun s now source journal i f hjournal hi hnow => ⟨List.Subset.refl _, fun h => h.note ?_⟩)
    above path s
  · rw [Loaded.sources_addFile]
    exact List.subset_append_left _ _
  · have hsource : source ∈ now.sources := hnow.1 (by simp [Loaded.sources_addFile])
    exact ⟨source, hsource, rfl,
      Journal.hasLine_of_mem_items hjournal (Journal.mem_items_of_inclusion hi)⟩

/-- All that is wrong with what was loaded has a place in the loaded files, and all directives
record one. -/
theorem load_located (h : (load files root).run.value? = some (.ok s)) : s.Located := by
  cases hroot : files.resolve root with
  | error e =>
    simp only [load, hroot] at h
    cases h
  | ok path =>
    rw [load_run hroot, Checked.value?_bind, Option.bind_eq_some_iff] at h
    obtain ⟨⟨last, failure⟩, hload, h⟩ := h
    have hstart : Loaded.Located { settings := { filename := some path } } := ⟨by simp, by simp⟩
    cases failure with
    | none =>
      cases h
      exact ((loadFile_located [] path _).of_value? hload).2 hstart
    | some f => cases h

end Loading

/-! ## Completing -/

section Metadata

variable {P : Metadata → Prop} {l : List Directive}

/-- Booking keeps the metadata of a directive. -/
theorem Directive.book_metadata (d : Directive) :
    d.book.Ends (fun b => b.directive.metadata = d.metadata) fun _ => True := by
  unfold book
  split
  · refine (Checked.Ends.value? _).bind fun outcome _ => ?_
    cases outcome with
    | ok result => exact .exact rfl
    | error failure => exact .exact rfl
  · exact .exact rfl

theorem bookAll_metadata (h : ∀ d ∈ l, P d.metadata) :
    (bookAll l).Ends (fun booked => ∀ b ∈ booked, P b.directive.metadata) fun _ => True := by
  refine (Checked.Ends.mapM fun d _ => d.book_metadata).mono (fun booked hbooked b hb => ?_)
    fun _ => id
  obtain ⟨d, hd, hdb⟩ := hbooked b hb
  exact hdb ▸ h d hd

namespace Padding

variable {strict : Bool} {s s' : State} {d : Directive} {seen : List Directive} {p : DatedPad}

theorem State.Step.mem_unused (h : s.Step strict d s') (hp : p ∈ s'.unused) :
    p ∈ s.unused ∨ ∃ (account : Account) (pad : Active), s.active[account]? = some pad ∧
      pad.entry = p := by
  cases h with
  | @pad q hbody =>
    refine (List.mem_append.1 hp).imp_right fun hp => ?_
    obtain ⟨pad, hpad, rfl⟩ := List.mem_map.1 hp
    exact ⟨q.account, pad, by simpa using (List.mem_filter.1 hpad).1, rfl⟩
  | post | pass | cover | fill => exact .inl hp

/-- The pads that apply and those without use are among the directives gone through. -/
theorem mem_of_run (h : (run seen).Gives strict s) :
    (∀ p ∈ s.unused, p.directive ∈ seen) ∧
      ∀ (account : Account) (pad : Active), s.active[account]? = some pad →
        pad.entry.directive ∈ seen := by
  refine Checked.foldlM_invariant (fun seen (s : State) => (∀ p ∈ s.unused, p.directive ∈ seen) ∧
    ∀ (account : Account) (pad : Active), s.active[account]? = some pad →
      pad.entry.directive ∈ seen) (by simp) ?_ h
  rintro seen s d s' ⟨hunused, hactive⟩ hstep
  have hstep := step_of_gives hstep
  refine ⟨fun p hp => List.mem_append_left _ ?_, fun account pad hpad => ?_⟩
  · rcases hstep.mem_unused hp with hp | ⟨account, pad, hpad, rfl⟩
    · exact hunused p hp
    · exact hactive account pad hpad
  · rw [hstep.active] at hpad
    rcases nextActive_eq_some hpad with ⟨rfl, -⟩ | ⟨before, hbefore, hentry, -⟩
    · exact List.mem_append_right _ (List.mem_singleton_self _)
    · exact List.mem_append_left _ (hentry ▸ hactive account before hbefore)

theorem exists_of_mem_values {α : Type} {m : Std.TreeMap Account α} {a : α} (h : a ∈ m.values) :
    ∃ account : Account, m[account]? = some a := by
  rw [values_eq_map_toList] at h
  obtain ⟨⟨account, a⟩, hmem, rfl⟩ := List.mem_map.1 h
  exact ⟨account, Std.TreeMap.mem_toList_iff_getElem?_eq_some.1 hmem⟩

theorem mem_of_mem_allUnused (h : (run seen).Gives strict s) (hp : p ∈ s.allUnused) :
    p.directive ∈ seen := by
  obtain ⟨hunused, hactive⟩ := mem_of_run h
  rcases List.mem_append.1 hp with hp | hp
  · exact hunused p hp
  · obtain ⟨pad, hpad, rfl⟩ := List.mem_map.1 ((List.mergeSort_perm _ _).mem_iff.1 hp)
    obtain ⟨account, haccount⟩ := exists_of_mem_values (List.mem_filter.1 hpad).1
    exact hactive account pad haccount

end Padding

/-- Padding transactions and pads without use have the metadata of pads. -/
theorem mergePadding_metadata (h : ∀ d ∈ l, P d.metadata) :
    (mergePadding l).Ends (fun r => (∀ d ∈ r.1, P d.metadata) ∧ ∀ p ∈ r.2, P p.metadata)
      fun _ => True := by
  have hsort : ∀ d ∈ Directive.sort l, P d.metadata := fun d hd =>
    h d ((Directive.sort_perm l).mem_iff.1 hd)
  have hpadding : (padding l).Ends
      (fun r => (∀ t ∈ r.1, P t.metadata) ∧ ∀ p ∈ r.2, P p.metadata) fun _ => True := by
    refine (Checked.Ends.value? _).bind fun s hs => .exact ⟨fun t ht => ?_, fun p hp => ?_⟩
    · obtain ⟨pad, asserted, difference, hpad, rfl⟩ :=
        Padding.exists_pad_of_mem_transactions (Checked.gives_false.2 hs) ht
      exact hsort pad.directive hpad
    · exact hsort p.directive (Padding.mem_of_mem_allUnused (Checked.gives_false.2 hs) hp)
  refine hpadding.bind fun ⟨transactions, unused⟩ ⟨htransactions, hunused⟩ => ?_
  simp only
  split
  · exact .exact ⟨h, hunused⟩
  · refine .exact ⟨fun d hd => ?_, hunused⟩
    rcases List.mem_append.1 ((Directive.sort_perm _).mem_iff.1 hd) with hd | hd
    · exact h d hd
    · exact htransactions d hd

/-- A violation is where the metadata of its directive says. -/
theorem validate_metadata (rules : Validation.Rules) (h : ∀ d ∈ l, P d.metadata) :
    (validate rules l).Ends (fun vs => ∀ v ∈ vs, ∃ m, P m ∧ v.location = m.location?)
      fun _ => True := by
  have hstep (d) (hd : d ∈ Directive.byDate l) (before : Validation.State × List Violation)
      (hbefore : ∀ v ∈ before.2, ∃ m, P m ∧ v.location = m.location?) :
      (Validation.step rules before d).Ends
        (fun after => ∀ v ∈ after.2, ∃ m, P m ∧ v.location = m.location?) fun _ => True := by
    refine Checked.Ends.iff.2 ⟨fun ⟨s, vs⟩ hafter => ?_, fun _ _ => trivial⟩
    obtain ⟨-, problems, -, rfl⟩ := Validation.step_gives (Checked.gives_false.2 hafter)
    intro v hv
    rcases List.mem_append.1 hv with hv | hv
    · exact hbefore v hv
    · obtain ⟨problem, -, rfl⟩ := List.mem_map.1 hv
      exact ⟨d.metadata, h d ((List.mergeSort_perm _ _).mem_iff.1 hd), rfl⟩
  exact (Checked.Ends.foldlM hstep (by simp)).bind fun after hafter => .exact hafter

end Metadata

/-! ## Ledgers -/

/-- The rule for the documents of a ledger: their paths are relative to its root file. -/
def Files.documentRule (files : Files) (root? : Option String) : Validation.DocumentRule where
  base := root?.map Path.parent
  isPresent := files.exist

namespace Ledger

variable {files : Files} {root : String} {loaded : Loaded} {ledger : Ledger}

theorem ofLoaded_located (h : loaded.Located)
    (hlines : ∀ source ∈ loaded.sources, source.lineCount < 2 ^ 64)
    (documents : Validation.DocumentRule) :
    (ofLoaded loaded documents).Ends
      (fun ledger => ∀ e ∈ ledger.errors, loaded.sources.Has ⟨e.file, e.line⟩) fun _ => True := by
  have hplace {m : Metadata} (hm : loaded.sources.HasPlaceOf m) (message : String) :
      loaded.sources.Has ⟨(LedgerError.located m.location? message).file,
        (LedgerError.located m.location? message).line⟩ := by
    obtain ⟨location, hhas, hrecords⟩ := hm
    obtain ⟨source, hsource, hpath, hline⟩ := hhas
    have hlt : location.line < 2 ^ 64 := Nat.lt_of_le_of_lt hline.2 (hlines source hsource)
    rw [hrecords.location?_eq hlt]
    exact ⟨source, hsource, hpath, hline⟩
  have hsort : ∀ d ∈ Directive.sort loaded.directives, loaded.sources.HasPlaceOf d.metadata :=
    fun d hd => h.directives d ((Directive.sort_perm _).mem_iff.1 hd)
  refine (bookAll_metadata hsort).bind fun booked hbooked => ?_
  have hdirectives : ∀ d ∈ booked.map (·.directive), loaded.sources.HasPlaceOf d.metadata := by
    simpa using hbooked
  refine (mergePadding_metadata hdirectives).bind fun ⟨entries, unused⟩ hmerged => ?_
  refine (validate_metadata _ hmerged.1).bind fun violations hviolations => .exact ?_
  simp only [List.mem_append, List.mem_map, List.mem_filterMap]
  rintro e (((⟨p, hp, rfl⟩ | ⟨b, hb, he⟩) | ⟨p, hp, rfl⟩) | ⟨v, hv, rfl⟩)
  · exact h.problems p hp
  · obtain ⟨failure, -, rfl⟩ := Option.map_eq_some_iff.1 he
    exact hplace (hbooked b hb) failure.message
  · exact hplace (hmerged.2 p hp) _
  · obtain ⟨m, hm, hlocation⟩ := hviolations v hv
    rw [LedgerError.ofViolation, hlocation]
    exact hplace hm _

theorem load_value? (hload : (DoubleEntry.load files root).run.value? = some (.ok loaded)) :
    (Ledger.load files root).run.value? =
      (ofLoaded loaded (files.documentRule loaded.rootPath?)).value?.map .ok := by
  rw [Files.documentRule, Ledger.load, ExceptT.run_bind, Checked.value?_bind, hload,
    Option.bind_some]
  simp only
  generalize ofLoaded loaded _ = x
  cases x <;> rfl

/-- Every error of a ledger names a file that was loaded, and one of its lines. -/
theorem errors_located (hload : (DoubleEntry.load files root).run.value? = some (.ok loaded))
    (hlines : ∀ source ∈ loaded.sources, source.lineCount < 2 ^ 64)
    (hledger : (Ledger.load files root).run.value? = some (.ok ledger)) :
    ∀ e ∈ ledger.errors, ∃ source ∈ loaded.sources,
      source.path = e.file ∧ 1 ≤ e.line ∧ e.line ≤ source.lineCount := by
  rw [load_value? hload] at hledger
  obtain ⟨ledger', hvalue, hok⟩ := Option.map_eq_some_iff.1 hledger
  obtain rfl := Except.ok.inj hok
  exact (ofLoaded_located (load_located hload) hlines _).of_value? hvalue

/-- Whatever `documents` says, a ledger without padding transactions is completed as it stands. -/
theorem ofLoaded_of_isSorted {documents : Validation.DocumentRule} {booked : List Booked}
    {s : Padding.State} {after : Validation.State × List Violation}
    (hsorted : Directive.IsSorted loaded.directives)
    (hbooked : bookAll loaded.directives = .exact booked)
    (hsorted' : Directive.IsSorted (booked.map (·.directive)))
    (hs : Padding.run (booked.map (·.directive)) = .exact s) (hnone : s.transactions = [])
    (hafter : Validation.run { documents := some documents } (booked.map (·.directive)) =
      .exact after) :
    ∃ ledger, (ofLoaded loaded documents).value? = some ledger := by
  have hmerged : mergePadding (booked.map (·.directive)) =
      .exact (booked.map (·.directive), s.allUnused) := by
    simp [mergePadding, padding, Directive.sort_of_isSorted hsorted', hs, hnone]
  have hvalid : validate { documents := some documents } (booked.map (·.directive)) =
      .exact after.2 := by
    rw [validate_of_isSorted hsorted', hafter]
    rfl
  rw [ofLoaded, Directive.sort_of_isSorted hsorted, hbooked]
  simp only [Checked.exact_bind, hmerged, hvalid]
  exact ⟨_, rfl⟩

end Ledger

/-- Two files with errors of every kind, in which users give places of their own. -/
def scattered : Files where
  resolve path := if path = "/lost" then .error .notFound else .ok path
  texts := [
    ("/main", "option \"booking_method\" \"LIFOO\"\npushmeta lineno: TRUE\n" ++
      "2024-01-01 open Assets:Cash\n  filename: \"elsewhere\"\n  lineno: NULL\n" ++
      "popmeta lineno:\ninclude \"more\"\n2024-01-02 *\n  Assets:Cash\n  Assets:Cash\n" ++
      "include \"lost\""),
    ("/more", "2024-01-03 pad Assets:Cash Equity:Opening\n2024-01-04 note Assets:Gone \"x\" \"y\"")]
  failure _ := .notFound

theorem errors_located_scattered :
    ∃ loaded ledger, (load scattered "/main").run.value? = some (.ok loaded) ∧
      (∀ source ∈ loaded.sources, source.lineCount < 2 ^ 64) ∧
      (Ledger.load scattered "/main").run.value? = some (.ok ledger) ∧
      ∀ e ∈ ledger.errors, ∃ source ∈ loaded.sources,
        source.path = e.file ∧ 1 ≤ e.line ∧ e.line ≤ source.lineCount := by
  obtain ⟨loaded, hload, hlines, hsorted, booked, hbooked, hsorted', s, hs, hnone, after, hafter⟩ :
      ∃ loaded, (load scattered "/main").run.value? = some (.ok loaded) ∧
        (∀ source ∈ loaded.sources, source.lineCount < 2 ^ 64) ∧
        Directive.IsSorted loaded.directives ∧
        ∃ booked, bookAll loaded.directives = .exact booked ∧
          (Directive.IsSorted (booked.map (·.directive)) ∧
          ∃ s, Padding.run (booked.map (·.directive)) = .exact s ∧
            (s.transactions = [] ∧
            ∃ after, Validation.run { documents := some (scattered.documentRule loaded.rootPath?) }
              (booked.map (·.directive)) = .exact after)) :=
    exists_of_any (by decide +kernel)
  obtain ⟨ledger, hledger⟩ :=
    Ledger.ofLoaded_of_isSorted hsorted hbooked hsorted' hs hnone hafter
  have hledger : (Ledger.load scattered "/main").run.value? = some (.ok ledger) := by
    rw [Ledger.load_value? hload, hledger]
    rfl
  exact ⟨loaded, ledger, hload, hlines, hledger, Ledger.errors_located hload hlines hledger⟩

end DoubleEntry
