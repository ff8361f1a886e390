import DoubleEntry.Proofs.Traversal

/-!
# Include lines

What loading one file does to a ledger, from a state in which some files have been visited already:
the ledger goes on by visits in the order of `Files.Traversal`.

* `Files.failure?`: why an include line of a visited file fails, if it does;
  `Files.isSome_failure?_iff` says when.
* `Loaded.Gains`: what some visits add to the sources, the directives and the problems.
* `Files.Continues`: visits that go on after others and leave no included file unmet.
* `Files.Follows`: the same in the middle of a file; `Follows.step` follows one more include line.
* `loads`: loading a file goes on by visits to it and to what it includes.
-/

namespace DoubleEntry

namespace LoadProblem

/-- Whether the problem is about an include line. -/
def isInclusion (p : LoadProblem) : Bool :=
  match p.cause with
  | .inclusion _ => true
  | _ => false

end LoadProblem

/-- The problems of include lines. -/
def Loaded.inclusionProblems (s : Loaded) : List LoadProblem :=
  s.problems.filter (·.isInclusion)

namespace Files

variable {files : Files} {root path : String} {visits : List Visit} {v : Visit}

/-- A file with its text. -/
def source (files : Files) (path : String) : Source :=
  ⟨path, (files.texts.lookup path).getD ""⟩

/-- The directives of a file, with the file on them. -/
def directives (files : Files) (path : String) : List Directive :=
  (files.journal path).directives.map (·.value.inFile path)

/-- Why a file cannot be loaded where the files of a chain include it, one the next. -/
def obstacle? (files : Files) (chain : List String) (path : String) : Option LoadFailure :=
  if path ∈ chain then some (.cycle (chain ++ [path]))
  else if files.Readable path then none
  else some (.unreadable path (files.failure path))

/-- Why an include line of a visited file fails, if it does. -/
def failure? (files : Files) (v : Visit) (i : IncludeLine) : Option LoadFailure :=
  let target := Path.join (Path.parent v.path) i.path
  match files.resolve target with
  | .error e => some (.unreadable target e)
  | .ok path => files.obstacle? (v.chain ++ [v.path]) path

/-- The problem of an include line of a visited file, if there is one. -/
def problem? (files : Files) (v : Visit) (i : IncludeLine) : Option LoadProblem :=
  (files.failure? v i).map fun f =>
    ⟨.inclusion f, ⟨v.path, (files.source v.path).lineOf i.span⟩⟩

/-- The problems of the include lines of a visited file. -/
def problems (files : Files) (v : Visit) : List LoadProblem :=
  (files.journal v.path).inclusions.filterMap (files.problem? v)

/-- Whether reading the file gives a journal, if it can be read at all. -/
def Parses (files : Files) (path : String) : Prop :=
  ∀ text, files.texts.lookup path = some text →
    ∃ journal, (Journal.ofText text).value? = some journal

/-- A file that cannot be read, or is being read already, is not loaded. -/
theorem isSome_obstacle?_iff {chain : List String} :
    (files.obstacle? chain path).isSome ↔ ¬files.Readable path ∨ path ∈ chain := by
  unfold obstacle?
  split <;> simp_all

/-- When an include line fails. -/
theorem isSome_failure?_iff {i : IncludeLine} : (files.failure? v i).isSome ↔
    files.target? v.path i = none ∨ ∃ path, files.target? v.path i = some path ∧
      (¬files.Readable path ∨ path ∈ v.chain ++ [v.path]) := by
  unfold failure? target?
  simp only
  cases files.resolve (Path.join (Path.parent v.path) i.path) with
  | error e => simp [Except.toOption]
  | ok path => simp [Except.toOption, isSome_obstacle?_iff]

theorem journal_eq {text : String} {journal : Journal} (htext : files.texts.lookup path = some text)
    (hjournal : (Journal.ofText text).value? = some journal) : files.journal path = journal := by
  simp [Files.journal, htext, hjournal]

end Files

/-! ## What is gained -/

/-- What has been read more after some visits, with some problems of include lines. -/
structure Loaded.Gains (files : Files) (new : List Visit) (problems : List LoadProblem)
    (s s' : Loaded) : Prop where
  sources : s'.sources = s.sources ++ new.map fun v => files.source v.path
  directives : s'.directives = s.directives ++ new.flatMap fun v => files.directives v.path
  problems : s'.inclusionProblems.Perm (s.inclusionProblems ++ problems)

namespace Loaded

variable {files : Files} {s s' s'' : Loaded} {new new' : List Visit}
  {problems problems' : List LoadProblem}

namespace Gains

theorem refl (files : Files) (s : Loaded) : Gains files [] [] s s :=
  ⟨by simp, by simp, by simp⟩

/-- What is gained in two goes adds up. -/
theorem trans (h : Gains files new problems s s') (h' : Gains files new' problems' s' s'') :
    Gains files (new ++ new') (problems ++ problems') s s'' where
  sources := by simp [h.sources, h'.sources]
  directives := by simp [h.directives, h'.directives]
  problems := by simpa using h'.problems.trans (h.problems.append_right problems')

theorem of_perm (h : Gains files new problems s s') (hperm : problems.Perm problems') :
    Gains files new problems' s s' :=
  ⟨h.sources, h.directives, h.problems.trans (hperm.append_left _)⟩

/-- Steps that gain nothing gain nothing together. -/
theorem foldl {α : Type} {f : Loaded → α → Loaded} (hf : ∀ s a, Gains files [] [] s (f s a))
    (l : List α) (s : Loaded) : Gains files [] [] s (l.foldl f s) := by
  induction l generalizing s with
  | nil => exact refl files s
  | cons a l ih => exact (hf s a).trans (ih (f s a))

end Gains

theorem gains_note (files : Files) (s : Loaded) {cause : LoadProblem.Cause} {location : Location}
    (hcause : [⟨cause, location⟩].filter (·.isInclusion) = problems) :
    Gains files [] problems s (s.note cause location) :=
  ⟨by simp [note], by simp [note], by simp [note, inclusionProblems, ← hcause]⟩

/-- An include line that fails gains one problem, and one that succeeds gains none. -/
theorem gains_failure (files : Files) (s : Loaded) (failure : Option LoadFailure)
    (location : Location) :
    Gains files [] (failure.map fun f => ⟨.inclusion f, location⟩).toList s
      (failure.elim s fun f => s.note (.inclusion f) location) := by
  cases failure with
  | none => exact .refl files s
  | some f => exact gains_note files s rfl

theorem gains_addOption (files : Files) (s : Loaded) (o : OptionLine) (location : Location) :
    Gains files [] [] s (s.addOption o location) := by
  unfold addOption
  obtain ⟨settings, warning⟩ := s.settings.set o.key o.value
  have hset : Gains files [] [] s { s with settings } :=
    ⟨by simp, by simp, by simp [inclusionProblems]⟩
  cases warning with
  | none => exact hset
  | some w => exact hset.trans (gains_note files _ rfl)

/-- What a file says itself is gained, and no include line has been followed yet. -/
theorem gains_addFile {v : Visit} {text : String} {journal : Journal}
    (htext : files.texts.lookup v.path = some text)
    (hjournal : (Journal.ofText text).value? = some journal) :
    Gains files [v] [] s (s.addFile v.path text journal) := by
  have hparsing (s : Loaded) (e : SyntaxError) (location : Location) :
      Gains files [] [] s (s.note (.parsing e) location) := gains_note files s rfl
  refine Gains.trans (?_ : Gains files [v] [] s _)
    ((Gains.foldl (fun s e => hparsing s e _) journal.errors _).trans
      (Gains.foldl (fun s o => gains_addOption files s o _) journal.options _))
  refine ⟨?_, ?_, ?_⟩
  · simp [Files.source, htext]
  · simp [Files.directives, Files.journal_eq htext hjournal]
  · simp [inclusionProblems]

end Loaded

/-! ## Loading one file -/

section Spec

variable {files : Files} {root path : String} {before new new' : List Visit} {v : Visit}
  {seen rest : List IncludeLine} {i : IncludeLine} {problems problems' : List LoadProblem}
  {s s' s'' now now' : Loaded}

/-- What loading a file does after some visits: it goes on by the visits `new`. -/
structure Files.Continues (files : Files) (root : String) (before new : List Visit)
    (problems : List LoadProblem) (s s' : Loaded) : Prop where
  traversal : files.Traversal root (before ++ new)
  finished : ∀ v ∈ new, files.Finished (before ++ new) v
  parses : ∀ v ∈ new, files.Parses v.path
  gains : s.Gains files new problems s'

namespace Files.Continues

theorem refl (h : files.Traversal root before) (s : Loaded) :
    files.Continues root before [] [] s s :=
  ⟨by simpa, by simp, by simp, .refl files s⟩

theorem trans (h : files.Continues root before new problems s s')
    (h' : files.Continues root (before ++ new) new' problems' s' s'') :
    files.Continues root before (new ++ new') (problems ++ problems') s s'' where
  traversal := by simpa using h'.traversal
  finished := by
    rw [← List.append_assoc]
    intro v hv
    obtain hv | hv := List.mem_append.1 hv
    · exact (h.finished v hv).append new'
    · exact h'.finished v hv
  parses v hv := (List.mem_append.1 hv).elim (h.parses v) (h'.parses v)
  gains := h.gains.trans h'.gains

/-- The files that were read are those that were visited. -/
theorem sources_eq (h : files.Continues root before new problems s s')
    (hs : s.sources = before.map fun v => files.source v.path) :
    s'.sources = (before ++ new).map fun v => files.source v.path := by
  rw [h.gains.sources, hs, List.map_append]

/-- A problem may be noted afterwards. -/
theorem gain (h : files.Continues root before new problems s s')
    (hgains : s'.Gains files [] problems' s'') :
    files.Continues root before new (problems ++ problems') s s'' :=
  ⟨h.traversal, h.finished, h.parses, by simpa using h.gains.trans hgains⟩

theorem of_perm (h : files.Continues root before new problems s s')
    (hperm : problems.Perm problems') : files.Continues root before new problems' s s' :=
  ⟨h.traversal, h.finished, h.parses, h.gains.of_perm hperm⟩

end Files.Continues

/-- What following some include lines of a file does, after the visits up to it. -/
structure Files.Follows (files : Files) (root : String) (before : List Visit) (v : Visit)
    (seen : List IncludeLine) (new : List Visit) (s s' : Loaded) : Prop where
  continues : files.Continues root (before ++ [v]) new
    (new.flatMap files.problems ++ seen.filterMap (files.problem? v)) s s'
  met : ∀ i ∈ seen, ∀ target, files.target? v.path i = some target →
    ¬files.Unmet (before ++ [v] ++ new) target

theorem Loaded.has_iff (hs : s.sources = before.map fun v => files.source v.path) :
    s.has path ↔ path ∈ before.map (·.path) := by
  simp [Loaded.has, hs, Files.source]

/-- What it means to load a file, in a chain of files that include it: whatever was visited before,
the ledger goes on by visits to the file and what it includes. -/
def Files.Loads (files : Files) (root : String) (above : List String) (path : String)
    (s : Loaded) : Prop :=
  ∀ before r, files.Traversal root before →
    (files.Unmet before path → files.Next root before ⟨path, above⟩) →
    (∀ p ∈ above, p ∈ before.map (·.path)) →
    (s.sources = before.map fun v => files.source v.path) →
    (loadFile files above path s).Gives false r →
    r.2 = files.obstacle? above path ∧ ∃ new,
      files.Continues root before new (new.flatMap files.problems) s r.1 ∧
        ¬files.Unmet (before ++ new) path

/-- Follows an include line of a visited file. -/
def Loaded.follow (files : Files) (v : Visit) (s : Loaded) (i : IncludeLine) : Checked Loaded := do
  let target := Path.join (Path.parent v.path) i.path
  let location : Location := ⟨v.path, (files.source v.path).lineOf i.span⟩
  match files.resolve target with
  | .error e => return s.note (.inclusion (.unreadable target e)) location
  | .ok canonical =>
    let (s, failure) ← loadFile files (v.chain ++ [v.path]) canonical s
    return failure.elim s fun f => s.note (.inclusion f) location

theorem loadFile_eq {text : String} (hnot : v.path ∉ v.chain)
    (hhas : ¬s.has v.path) (hread : files.texts.lookup v.path = some text) :
    loadFile files v.chain v.path s = do
      let journal ← Journal.ofText text
      let s ← journal.inclusions.foldlM (Loaded.follow files v) (s.addFile v.path text journal)
      return (s, none) := by
  have hsource : files.source v.path = ⟨v.path, text⟩ := by simp [Files.source, hread]
  rw [loadFile, dif_neg hnot, if_neg hhas]
  unfold Loaded.follow
  simp only [hsource]
  split
  · simp_all
  · obtain rfl : text = _ := Option.some.inj (hread.symm.trans ‹_›)
    rfl

/-- A file that is met through an include line is what comes next, once the include lines before it
have been followed. -/
theorem Files.Follows.next {target : String}
    (hlines : (files.journal v.path).inclusions = seen ++ i :: rest)
    (h : files.Follows root before v seen new s now)
    (htarget : files.target? v.path i = some target)
    (hunmet : files.Unmet (before ++ [v] ++ new) target) :
    files.Next root (before ++ [v] ++ new) ⟨target, v.chain ++ [v.path]⟩ := by
  have hseen : (seen.filterMap (files.target? v.path)).find?
      (files.Unmet (before ++ [v] ++ new) ·) = none := by
    rw [List.find?_eq_none]
    intro q hq
    obtain ⟨j, hj, hq⟩ := List.mem_filterMap.1 hq
    simpa using h.met j hj q hq
  have hfind : (files.targets v.path).find? (files.Unmet (before ++ [v] ++ new) ·) =
      some target := by
    rw [Files.targets, hlines, List.filterMap_append, List.find?_append, hseen,
      List.filterMap_cons_some htarget, Option.none_or,
      List.find?_cons_of_pos (by simpa using hunmet)]
  have heq : before ++ [v] ++ new = before ++ v :: new := by simp
  have hfinished := h.continues.finished
  rw [heq] at hfind hfinished ⊢
  exact .target hfinished hfind rfl

/-- Following one more include line adds the visits that it leads to. -/
theorem Files.Follows.concat {more : List Visit} (h : files.Follows root before v seen new s now)
    (hmore : files.Continues root (before ++ [v] ++ new) more
      (more.flatMap files.problems ++ (files.problem? v i).toList) now now')
    (hmet : ∀ target, files.target? v.path i = some target →
      ¬files.Unmet (before ++ [v] ++ (new ++ more)) target) :
    files.Follows root before v (seen ++ [i]) (new ++ more) s now' where
  continues := by
    refine (h.continues.trans hmore).of_perm ?_
    rw [List.flatMap_append, List.filterMap_append, List.append_assoc, List.append_assoc]
    refine List.Perm.append_left _ ?_
    have hlast : [i].filterMap (files.problem? v) = (files.problem? v i).toList := by
      cases h : files.problem? v i <;> simp [h]
    rw [hlast, ← List.append_assoc, ← List.append_assoc]
    exact List.perm_append_comm.append_right _
  met j hj target htarget := by
    obtain hj | rfl := by simpa using hj
    · rw [← List.append_assoc]
      exact fun hunmet => h.met j hj target htarget hunmet.of_append
    · exact hmet target htarget

/-- One more include line is followed. -/
theorem Files.Follows.step
    (ih : ∀ target s, files.Loads root (v.chain ++ [v.path]) target s)
    (hs : s.sources = (before ++ [v]).map fun v => files.source v.path)
    (habove : ∀ p ∈ v.chain, p ∈ before.map (·.path))
    (hlines : (files.journal v.path).inclusions = seen ++ i :: rest)
    (h : files.Follows root before v seen new s now)
    (hfollow : (now.follow files v i).Gives false now') :
    ∃ new', files.Follows root before v (seen ++ [i]) new' s now' := by
  unfold Loaded.follow at hfollow
  simp only at hfollow
  cases hresolve : files.resolve (Path.join (Path.parent v.path) i.path) with
  | error e =>
    simp only [hresolve, Checked.pure_eq, Checked.exact_gives] at hfollow
    subst hfollow
    have hfailure : files.failure? v i =
        some (.unreadable (Path.join (Path.parent v.path) i.path) e) := by
      simp only [Files.failure?, hresolve]
    refine ⟨_, h.concat ((Files.Continues.refl h.continues.traversal now).gain ?_) ?_⟩
    · rw [Files.problem?, hfailure]
      exact now.gains_failure files (some _) _
    · simp [Files.target?, hresolve, Except.toOption]
  | ok target =>
    have htarget : files.target? v.path i = some target := by
      simp [Files.target?, hresolve, Except.toOption]
    simp only [hresolve, Checked.bind_gives] at hfollow
    obtain ⟨⟨next, failure⟩, hload, hfollow⟩ := hfollow
    obtain ⟨hfailure, more, hmore, hmet⟩ := ih target now (before ++ [v] ++ new) _
      h.continues.traversal (h.next hlines htarget) (fun p hp => by
        obtain hp | rfl := by simpa using hp
        · simp only [List.map_append, List.mem_append, habove p hp, true_or]
        · simp) (h.continues.sources_eq hs) hload
    simp only [Checked.pure_eq, Checked.exact_gives] at hfollow hfailure
    subst hfollow
    have hfailure' : files.failure? v i = failure := by
      simp only [Files.failure?, hresolve, hfailure]
    refine ⟨_, h.concat (hmore.gain ?_) ?_⟩
    · rw [Files.problem?, hfailure']
      exact next.gains_failure files failure _
    · intro q hq
      obtain rfl : target = q := Option.some.inj (htarget.symm.trans hq)
      rwa [← List.append_assoc]

/-- All include lines of a file have been followed. -/
theorem Files.Follows.all {start : Loaded}
    (h : files.Follows root before v (files.journal v.path).inclusions new start s')
    (hown : s.Gains files [v] [] start) (hparses : files.Parses v.path) :
    files.Continues root before (v :: new) ((v :: new).flatMap files.problems) s s' where
  traversal := by simpa using h.continues.traversal
  finished w hw := by
    have heq : before ++ v :: new = before ++ [v] ++ new := by simp
    rw [heq]
    obtain rfl | hw := List.mem_cons.1 hw
    · intro target htarget
      obtain ⟨i, hi, htarget⟩ := List.mem_filterMap.1 htarget
      exact h.met i hi target htarget
    · exact h.continues.finished w hw
  parses := List.forall_mem_cons.2 ⟨hparses, h.continues.parses⟩
  gains := (hown.trans h.continues.gains).of_perm (by
    rw [List.nil_append, List.flatMap_cons]
    exact List.perm_append_comm)

/-- Loading a file visits it and what it includes, or says what is in the way. -/
theorem loads {above : List String} : files.Loads root above path s := by
  induction above, path, s using loadFile.induct files with
  | case1 above path s hin =>
    intro before r hbefore hnext habove hs h
    rw [loadFile, dif_pos hin, Checked.pure_eq, Checked.exact_gives] at h
    subst h
    refine ⟨by simp [Files.obstacle?, hin], [], .refl hbefore s, ?_⟩
    simpa [Files.Unmet] using fun _ => habove path hin
  | case2 above path s hnot hhas =>
    intro before r hbefore hnext habove hs h
    rw [loadFile, dif_neg hnot, if_pos hhas, Checked.pure_eq, Checked.exact_gives] at h
    subst h
    rw [Loaded.has_iff hs] at hhas
    obtain ⟨v, hv, rfl⟩ := List.mem_map.1 hhas
    refine ⟨by simp [Files.obstacle?, hnot, hbefore.readable v hv], [], .refl hbefore s, ?_⟩
    simpa [Files.Unmet] using fun _ => hhas
  | case3 above path s hnot hhas hread =>
    intro before r hbefore hnext habove hs h
    have hunread : ¬files.Readable path := by simp [Files.Readable, hread]
    rw [loadFile, dif_neg hnot, if_neg hhas] at h
    split at h
    · rw [Checked.pure_eq, Checked.exact_gives] at h
      subst h
      refine ⟨by simp [Files.obstacle?, hnot, hunread], [], .refl hbefore s, ?_⟩
      simp [Files.Unmet, hunread]
    · simp_all
  | case4 above path s hnot hhas text hread ih =>
    intro before r hbefore hnext habove hs h
    let v : Visit := ⟨path, above⟩
    have hreadable : files.Readable path := by simp [Files.Readable, hread]
    have hvisit : files.Traversal root (before ++ [v]) :=
      hbefore.next (hnext ⟨hreadable, by rwa [Loaded.has_iff hs] at hhas⟩)
    rw [loadFile_eq (v := v) hnot hhas hread, Checked.bind_gives] at h
    obtain ⟨journal, hjournal, h⟩ := h
    obtain ⟨last, hlast, h⟩ := Checked.bind_gives.1 h
    rw [Checked.pure_eq, Checked.exact_gives] at h
    subst h
    rw [Checked.gives_false] at hjournal
    obtain rfl := Files.journal_eq hread hjournal
    have hown := s.gains_addFile (v := v) hread hjournal
    have hs' : (s.addFile path text (files.journal path)).sources =
        (before ++ [v]).map fun v => files.source v.path := by
      rw [hown.sources, hs, List.map_append]
    -- The invariant says what the include lines gone through so far do.
    obtain ⟨new, hfollows⟩ := Checked.foldlM_invariant
      (fun seen now => seen <+: (files.journal path).inclusions → ∃ new,
        files.Follows root before v seen new (s.addFile path text (files.journal path)) now)
      (fun _ => ⟨[], .refl hvisit _, by simp⟩)
      (fun seen now i now' hseen hstep ⟨rest, hlines⟩ => by
        obtain ⟨new, h⟩ := hseen ⟨[i] ++ rest, by simpa using hlines⟩
        exact h.step (fun target s => ih s target) hs' habove (by simpa using hlines.symm) hstep)
      hlast (List.prefix_refl _)
    refine ⟨by simp [Files.obstacle?, hnot, hreadable], v :: new,
      hfollows.all hown fun _ htext => ?_, fun hunmet => hunmet.2 (by simp [v])⟩
    exact ⟨_, by rwa [← Option.some.inj (hread.symm.trans htext)]⟩

end Spec

end DoubleEntry
