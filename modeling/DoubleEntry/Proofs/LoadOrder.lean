import DoubleEntry.Proofs.Ends
import DoubleEntry.Proofs.Inclusion

/-!
# Loaded ledgers

What a ledger is that was loaded from a root file (`Loaded.ReadFrom`): the files that the root
reaches were visited in depth-first preorder of their include lines, each gave what it says once, and
the include lines that fail are its problems.

* `loadFile_total`: loading comes to an end with a result if all texts can be read as journals.
* `loadFile_relates`: what relates the ledgers before and after each step of loading relates those
  before and after it.
* `load_gives`: whatever result there is, is such a ledger.
* `Loaded.readFrom_of_complete`: its visits are the only complete traversal there is.
* `exists_load_iff`: there is a result exactly if no reading fails.
-/

namespace DoubleEntry

variable {files : Files} {root path : String} {s : Loaded}

theorem Loaded.follow_total {v : Visit} {i : IncludeLine}
    (hi : i ∈ (files.journal v.path).inclusions)
    (hload : ∀ target ∈ files.targets v.path,
      ∃ r, (loadFile files (v.chain ++ [v.path]) target s).value? = some r) :
    ∃ s', (s.follow files v i).value? = some s' := by
  unfold Loaded.follow
  simp only
  cases hresolve : files.resolve (Path.join (Path.parent v.path) i.path) with
  | error e => exact ⟨_, rfl⟩
  | ok target =>
    obtain ⟨r, hr⟩ := hload target
      (List.mem_filterMap.2 ⟨i, hi, by simp [Files.target?, hresolve, Except.toOption]⟩)
    simp only [Checked.value?_bind, hr, Option.bind_some]
    exact ⟨_, rfl⟩

/-- Loading a file comes to an end with a result if all texts can be read. -/
theorem loadFile_total {above : List String}
    (hparses : ∀ p, files.Reaches path p → files.Parses p) :
    ∃ r, (loadFile files above path s).value? = some r := by
  induction above, path, s using loadFile.induct files with
  | case1 above path s hin => exact ⟨_, by rw [loadFile, dif_pos hin]; rfl⟩
  | case2 above path s hnot hhas => exact ⟨_, by rw [loadFile, dif_neg hnot, if_pos hhas]; rfl⟩
  | case3 above path s hnot hhas hread =>
    rw [loadFile, dif_neg hnot, if_neg hhas]
    split
    · exact ⟨_, rfl⟩
    · simp_all
  | case4 above path s hnot hhas text hread ih =>
    obtain ⟨journal, hjournal⟩ := hparses path .refl text hread
    obtain rfl := Files.journal_eq hread hjournal
    rw [loadFile_eq (v := ⟨path, above⟩) hnot hhas hread]
    have hstep (i) (hi : i ∈ (files.journal path).inclusions) (s : Loaded) :=
      Loaded.follow_total (v := ⟨path, above⟩) hi (s := s)
        fun target htarget => ih s target fun p hp => hparses p (.head htarget hp)
    obtain ⟨last, hlast⟩ := Checked.foldlM_total hstep (s.addFile path text (files.journal path))
    rw [Checked.value?_bind, hjournal, Option.bind_some, Checked.value?_bind, hlast]
    exact ⟨_, rfl⟩

theorem Loaded.sources_addOption (s : Loaded) (o : OptionLine) (location : Location) :
    (s.addOption o location).sources = s.sources := by
  unfold addOption
  obtain ⟨settings, warning⟩ := s.settings.set o.key o.value
  cases warning <;> rfl

/-- What holds of a ledger with the directives of one more file, and of it with any of its problems
and options, holds when the file is taken in. -/
theorem Loaded.addFile_induction {P : Loaded → Prop} (source : Source) {journal : Journal}
    (hfile : P { s with
      sources := s.sources ++ [source]
      plugins := s.plugins ++ journal.plugins.map (⟨·, s.sources.length⟩)
      directives := s.directives ++ journal.directives.map (·.value.inFile source.path) })
    (herror : ∀ e ∈ journal.errors, ∀ s', P s' →
      P (s'.note (.parsing e) ⟨source.path, source.lineOf e.span⟩))
    (hoption : ∀ o ∈ journal.options, ∀ s', P s' →
      P (s'.addOption o ⟨source.path, source.lineOf o.span⟩)) :
    P (s.addFile source.path source.text journal) := by
  obtain ⟨path, text⟩ := source
  refine List.foldlRecOn journal.options _ ?_ fun s' hs' o ho => hoption o ho s' hs'
  exact List.foldlRecOn journal.errors _ hfile fun s' hs' e he => herror e he s' hs'

theorem Loaded.sources_addFile (s : Loaded) (path text : String) (journal : Journal) :
    (s.addFile path text journal).sources = s.sources ++ [⟨path, text⟩] :=
  addFile_induction (P := (·.sources = s.sources ++ [(⟨path, text⟩ : Source)])) ⟨path, text⟩ rfl
    (fun _ _ _ hs' => hs') fun o _ s' hs' => (sources_addOption s' o _).trans hs'

/-- A relation that goes on by what a file says, and by the problems of its include lines, relates
the ledgers before and after loading. -/
theorem loadFile_relates {R : Loaded → Loaded → Prop} (hrefl : ∀ s, R s s)
    (htrans : ∀ s s' s'', R s s' → R s' s'' → R s s'')
    (hfile : ∀ (s : Loaded) (path : String) {text : String} {journal : Journal},
      (Journal.ofText text).value? = some journal → R s (s.addFile path text journal))
    (hnote : ∀ (s now : Loaded) (source : Source) {journal : Journal} {i : IncludeLine}
      (f : LoadFailure), (Journal.ofText source.text).value? = some journal →
      i ∈ journal.inclusions → R (s.addFile source.path source.text journal) now →
      R now (now.note (.inclusion f) ⟨source.path, source.lineOf i.span⟩))
    (above : List String) (path : String) (s : Loaded) :
    (loadFile files above path s).Ends (fun r => R s r.1) fun _ => True := by
  induction above, path, s using loadFile.induct files with
  | case1 above path s hin =>
    rw [loadFile, dif_pos hin]
    exact .exact (hrefl s)
  | case2 above path s hnot hhas =>
    rw [loadFile, dif_neg hnot, if_pos hhas]
    exact .exact (hrefl s)
  | case3 above path s hnot hhas hread =>
    rw [loadFile, dif_neg hnot, if_neg hhas]
    split
    · exact .exact (hrefl s)
    · simp_all
  | case4 above path s hnot hhas text hread ih =>
    have hsource : files.source path = ⟨path, text⟩ := by simp [Files.source, hread]
    rw [loadFile_eq (v := ⟨path, above⟩) hnot hhas hread]
    refine (Checked.Ends.value? _).bind fun journal hjournal => ?_
    -- The include lines go on from what the file says itself.
    have hstep (i) (hi : i ∈ journal.inclusions) (now : Loaded)
        (hnow : R (s.addFile path text journal) now) :
        (now.follow files ⟨path, above⟩ i).Ends (R (s.addFile path text journal)) fun _ => True := by
      have hfail (now : Loaded) (f : LoadFailure) (hnow : R (s.addFile path text journal) now) :
          R (s.addFile path text journal)
            (now.note (.inclusion f) ⟨path, (files.source path).lineOf i.span⟩) := by
        rw [hsource]
        exact htrans _ _ _ hnow (hnote s now ⟨path, text⟩ f hjournal hi hnow)
      unfold Loaded.follow
      simp only
      cases files.resolve (Path.join (Path.parent path) i.path) with
      | error e => exact .exact (hfail now _ hnow)
      | ok target =>
        refine (ih now target).bind ?_
        rintro ⟨next, failure⟩ hnext
        cases failure with
        | none => exact .exact (htrans _ _ _ hnow hnext)
        | some f => exact .exact (hfail next f (htrans _ _ _ hnow hnext))
    refine (Checked.Ends.foldlM hstep (hrefl _)).bind fun last hlast => .exact ?_
    exact htrans _ _ _ (hfile s path hjournal) hlast

/-- What a ledger is that was loaded from a root file: its files were visited one after the other,
and each of them gave it what it says. -/
structure Loaded.ReadFrom (files : Files) (root : String) (visits : List Visit)
    (loaded : Loaded) : Prop where
  traversal : files.Traversal root visits
  complete : files.Complete visits
  /-- The chain of a visit leads from the root to the file. -/
  isChain : ∀ v ∈ visits, (v.chain ++ [v.path]).head? = some root ∧
    (v.chain ++ [v.path]).IsChain fun path target => target ∈ files.targets path
  /-- Exactly the readable files that the root reaches are visited. -/
  exists_visit_iff : ∀ path,
    (∃ v ∈ visits, v.path = path) ↔ files.Readable path ∧ files.Reaches root path
  /-- None of them is visited twice. -/
  nodup : (visits.map (·.path)).Nodup
  parses : ∀ v ∈ visits, files.Parses v.path
  sources : loaded.sources = visits.map fun v => files.source v.path
  directives : loaded.directives = visits.flatMap fun v => files.directives v.path
  /-- Each include line that fails is one problem. -/
  problems : loaded.inclusionProblems.Perm (visits.flatMap files.problems)
  /-- It fails if its target does not resolve, cannot be read, or is on the chain of includes. -/
  isSome_problem?_iff : ∀ v ∈ visits, ∀ i ∈ (files.journal v.path).inclusions,
    (files.problem? v i).isSome ↔ files.target? v.path i = none ∨
      ∃ target, files.target? v.path i = some target ∧
        (¬files.Readable target ∨ target ∈ v.chain ++ [v.path])

theorem load_run (hroot : files.resolve root = .ok path) :
    (load files root).run = do
      let r ← loadFile files [] path { settings := { filename := some path } }
      return r.2.elim (.ok r.1) .error := by
  simp only [load, hroot, ExceptT.run_bind]
  refine (bind_map_left Except.ok (loadFile files [] path _) _).trans ?_
  congr 1
  funext ⟨s, failure⟩
  cases failure <;> rfl

/-- Whatever loading a ledger gives, it is the ledger that its files say. -/
theorem load_gives (hroot : files.resolve root = .ok path) (hread : files.Readable path)
    {result : Except LoadFailure Loaded} (h : (load files root).run.value? = some result) :
    ∃ loaded visits, result = .ok loaded ∧ loaded.ReadFrom files path visits := by
  rw [load_run hroot, Checked.value?_bind, Option.bind_eq_some_iff] at h
  obtain ⟨⟨loaded, failure⟩, hload, h⟩ := h
  obtain ⟨hfailure, visits, hcontinues, hmet⟩ := loads [] _ .start
    (fun hunmet => .root hunmet.1) (by simp) rfl (Checked.gives_false.2 hload)
  obtain rfl : failure = none := by simpa [Files.obstacle?, hread] using hfailure
  obtain ⟨htraversal, hfinished, hparses, hgains⟩ := hcontinues
  rw [List.nil_append] at htraversal hfinished hmet
  have hcomplete : files.Complete visits := by
    refine ⟨?_, hfinished⟩
    rintro rfl
    exact hmet ⟨hread, by simp⟩
  exact ⟨loaded, visits, (Option.some.inj h).symm,
    { traversal := htraversal
      complete := hcomplete
      isChain := htraversal.isChain
      exists_visit_iff := fun _ => htraversal.exists_visit_iff hcomplete
      nodup := htraversal.nodup
      parses := hparses
      sources := by simpa using hgains.sources
      directives := by simpa using hgains.directives
      problems := by simpa [Loaded.inclusionProblems] using hgains.problems
      isSome_problem?_iff := fun v _ i _ => by
        rw [Files.problem?, Option.isSome_map, Files.isSome_failure?_iff] }⟩

/-- Whichever complete traversal one finds, a loaded ledger is what its visits say: there is only
one. -/
theorem Loaded.readFrom_of_complete {visits : List Visit} (hroot : files.resolve root = .ok path)
    (hread : files.Readable path) (h : (load files root).run.value? = some (.ok s))
    (htraversal : files.Traversal path visits) (hcomplete : files.Complete visits) :
    s.ReadFrom files path visits := by
  obtain ⟨loaded, visits', hloaded, hfrom⟩ := load_gives hroot hread h
  obtain rfl := Except.ok.inj hloaded
  obtain rfl := htraversal.eq_of_complete hcomplete hfrom.traversal hfrom.complete
  exact hfrom

/-- A ledger is loaded only if its root resolves to a file that can be read. -/
theorem readable_of_load (h : (load files root).run.value? = some (.ok s)) :
    ∃ path, files.resolve root = .ok path ∧ files.Readable path := by
  cases hroot : files.resolve root with
  | error e =>
    simp only [load, hroot] at h
    cases h
  | ok path =>
    refine ⟨path, rfl, ?_⟩
    by_contra hnot
    have hread : files.texts.lookup path = none := Option.not_isSome_iff_eq_none.1 hnot
    rw [load_run hroot, loadFile, dif_neg (by simp), if_neg (by simp [Loaded.has])] at h
    split at h
    · cases h
    · simp_all

/-- Every directive of a loaded ledger is written in one of its files, and names that file. -/
theorem exists_written (h : (load files root).run.value? = some (.ok s)) {d : Directive}
    (hd : d ∈ s.directives) :
    ∃ source ∈ s.sources, ∃ j, (Journal.ofText source.text).value? = some j ∧
      ∃ written ∈ j.directives, d = written.value.inFile source.path := by
  obtain ⟨path, hroot, hread⟩ := readable_of_load h
  obtain ⟨loaded, visits, hloaded, hfrom⟩ := load_gives hroot hread h
  obtain rfl := Except.ok.inj hloaded
  rw [hfrom.directives] at hd
  obtain ⟨v, hv, hd⟩ := List.mem_flatMap.1 hd
  obtain ⟨hreadable, -⟩ := (hfrom.exists_visit_iff v.path).1 ⟨v, hv, rfl⟩
  obtain ⟨text, htext⟩ := Option.isSome_iff_exists.1 hreadable
  obtain ⟨j, hj⟩ := hfrom.parses v hv text htext
  rw [Files.directives, Files.journal_eq htext hj] at hd
  obtain ⟨written, hwritten, rfl⟩ := List.mem_map.1 hd
  refine ⟨files.source v.path, ?_, j, ?_, written, hwritten, rfl⟩
  · rw [hfrom.sources]
    exact List.mem_map_of_mem hv
  · rwa [Files.source, htext]

/-- Loading a ledger gives a result exactly if the files that its root reaches can be read as
journals. -/
theorem exists_load_iff (hroot : files.resolve root = .ok path) (hread : files.Readable path) :
    (∃ loaded visits, (load files root).run.value? = some (.ok loaded) ∧
      loaded.ReadFrom files path visits) ↔
    ∀ p, files.Reaches path p → files.Parses p := by
  constructor
  · rintro ⟨loaded, visits, -, h⟩ p hreach text htext
    obtain ⟨v, hv, rfl⟩ := (h.exists_visit_iff p).2 ⟨by simp [Files.Readable, htext], hreach⟩
    exact h.parses v hv text htext
  · intro hparses
    obtain ⟨result, hresult⟩ : ∃ result, (load files root).run.value? = some result := by
      obtain ⟨r, hr⟩ := loadFile_total hparses
      rw [load_run hroot, Checked.value?_bind, hr]
      exact ⟨_, rfl⟩
    obtain ⟨loaded, visits, rfl, h⟩ := load_gives hroot hread hresult
    exact ⟨loaded, visits, hresult, h⟩

/-- Files that include each other twice and in cycles, and one that is lost. -/
def diamond : Files where
  resolve path := .ok path
  texts := [
    ("/main", "include \"left\"\ninclude \"right\"\n2024-01-01 open Assets:Cash\ninclude \"lost\"\n"),
    ("/left", "2024-01-02 open Assets:Bank\ninclude \"right\"\n"),
    ("/right", "include \"right\"\ninclude \"main\"\n2024-01-03 open Income:Work\n")]
  failure _ := .notFound

theorem exists_load_iff_diamond : diamond.resolve "/main" = .ok "/main" ∧
    diamond.Readable "/main" ∧ (∀ p, diamond.Reaches "/main" p → diamond.Parses p) ∧
    ∃ loaded visits, (load diamond "/main").run.value? = some (.ok loaded) ∧
      loaded.ReadFrom diamond "/main" visits := by
  have hall : ∀ e ∈ diamond.texts, (Journal.ofText e.2).value?.isSome := by decide +kernel
  have hparses (p) (_ : diamond.Reaches "/main" p) : diamond.Parses p := by
    intro text htext
    obtain ⟨before, after, htexts, -⟩ := List.lookup_eq_some_iff.1 htext
    exact Option.isSome_iff_exists.1 (hall (p, text) (by simp [htexts]))
  exact ⟨rfl, by decide, hparses, (exists_load_iff rfl (by decide)).2 hparses⟩

example : ((load diamond "/main").run.value?.bind (·.toOption)).map
      (fun loaded => (loaded.sources.map (·.path), loaded.inclusionProblems.map (·.cause))) =
    some (["/main", "/left", "/right"], [
      .inclusion (.cycle ["/main", "/left", "/right", "/right"]),
      .inclusion (.cycle ["/main", "/left", "/right", "/main"]),
      .inclusion (.unreadable "/lost" .notFound)]) := by
  decide +kernel

/-! ## A product that does not fit -/

/-- Two numbers with a star in between. Both are decimals, but their product does not fit one. -/
def tooLarge : Line where
  indent := none
  tokens := [⟨.number, ⟨15, 44⟩, 1, "79228162514264337593543950335"⟩, ⟨.star, ⟨45, 46⟩, 1, "*"⟩,
    ⟨.number, ⟨47, 48⟩, 1, "2"⟩]
  ending := ⟨48, 49⟩

theorem expression_tooLarge :
    tooLarge.expression = ExceptT.lift (.error .multiplicationOverflow) := by
  rw [Line.expression, Line.product, Line.factor]
  simp only [tooLarge, Line.numberValue]
  rw [show Decimal.ofChars? _ = some ⟨false, 2 ^ 96 - 1, 0, by decide, by decide⟩ by decide +kernel]
  simp only [pure_bind]
  rw [Line.moreFactors]
  simp only [Line.withTokens]
  rw [Line.factor]
  simp only [Line.numberValue]
  rw [show Decimal.ofChars? _ = some ⟨false, 2, 0, by decide, by decide⟩ by decide +kernel]
  simp only [pure_bind]
  rw [show Decimal.mul _ _ = .error .multiplicationOverflow by decide +kernel]
  rfl

theorem value_tooLarge : tooLarge.value = ExceptT.lift (.error .multiplicationOverflow) := by
  rw [Line.value, if_neg (by decide), Line.writtenValue, if_pos (by decide), expression_tooLarge]
  rfl

/-- A line that pushes this product. -/
def pushTooLarge : String := "pushmeta rate: 79228162514264337593543950335 * 2\n"

theorem ofText_pushTooLarge : Journal.ofText pushTooLarge = .error .multiplicationOverflow := by
  let key : Token := ⟨.metaKey, ⟨9, 14⟩, 1, "rate:"⟩
  let rest := tooLarge.withTokens (key :: tooLarge.tokens)
  let head := rest.withTokens (⟨.keyword .pushMeta, ⟨0, 8⟩, 1, "pushmeta"⟩ :: rest.tokens)
  let newline : Token := ⟨.newline, ⟨48, 49⟩, 1, "\n"⟩
  have hscan : Token.scan pushTooLarge = head.tokens ++ [newline] := by decide +kernel
  have hlines : Block.ofLines (Line.ofTokens (head.tokens ++ [newline])) = ([], [⟨head, []⟩]) := rfl
  have hread : Pushed.readPushMetadata {} rest = ExceptT.lift (.error .multiplicationOverflow) := by
    change tooLarge.value >>= _ = _
    rw [value_tooLarge]
    rfl
  have hstep : Block.step {} ⟨head, []⟩ = .error .multiplicationOverflow := by
    change Step.ofPush {} (Pushed.readPushMetadata {} rest) [] = _
    rw [hread]
    rfl
  rw [Journal.ofText, hscan, Journal.ofTokens, hlines]
  change (Block.step {} ⟨head, []⟩ >>= _) >>= _ = _
  rw [hstep]
  rfl

/-- A file that includes another with that line. -/
def overflowing : Files where
  resolve path := .ok path
  texts := [
    ("/main", "2024-01-01 open Assets:Cash\ninclude \"rates\"\n"),
    ("/rates", pushTooLarge)]
  failure _ := .notFound

/-- A readable root alone is not enough for a result. -/
theorem load_overflowing : overflowing.resolve "/main" = .ok "/main" ∧
    overflowing.Readable "/main" ∧ overflowing.Reaches "/main" "/rates" ∧
    overflowing.Readable "/rates" ∧ (load overflowing "/main").run.value? = none := by
  have hreach : overflowing.Reaches "/main" "/rates" := .single (by decide +kernel)
  refine ⟨rfl, by decide, hreach, by decide, Option.eq_none_iff_forall_ne_some.2 ?_⟩
  intro result hresult
  obtain ⟨loaded, visits, -, h⟩ := load_gives rfl (by decide) hresult
  obtain ⟨v, hv, hpath⟩ := (h.exists_visit_iff "/rates").2 ⟨by decide, hreach⟩
  obtain ⟨journal, hjournal⟩ := h.parses v hv _ (by rw [hpath]; rfl)
  rw [ofText_pushTooLarge] at hjournal
  cases hjournal

end DoubleEntry
