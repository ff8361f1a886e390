import DoubleEntry.Proofs.Journal.Transactions
import DoubleEntry.Proofs.Located

/-!
# The lines of postings

A posting records the line on which it starts, and the metadata lines that stand further in below it
are put on top of that. So it tells its own line unless one of them is about the key of the line.

* `PostingLines`: the line of a posting with the lines below it, as they stand in a block.
* `Draft.postings_of_readLines`: the metadata of the postings that are read from some lines.
* `posting_lines_iff`: when a posting tells the line on which it starts, in a text and in a loaded
  ledger.
-/

namespace DoubleEntry

/-- The posting with more metadata. -/
def Posting.withEntries (p : Posting) (entries : List (String × MetaValue)) : Posting :=
  { p with metadata := p.metadata.insertAll entries }

/-! ## Lines of postings -/

namespace Line

/-- Whether a posting starts on the line. -/
def startsPosting (l : Line) : Bool :=
  l.tokens.head?.any fun t => t.isPostingFlag || t.kind = .account

/-- What the line says about a posting with some indentation, above it and nearest to it. -/
def entryBelow? (indent : Nat) (l : Line) : Option (String × MetaValue) :=
  if l.nextKind? = some .metaKey ∧ indent < l.indentWidth then
    l.keyValue.run.value?.bind (·.toOption)
  else none

end Line

/-- The line on which a posting starts, and the lines below it up to that of the next posting. -/
structure PostingLines where
  head : Line
  below : List Line

namespace PostingLines

/-- The lines in front of the first posting, and those of the postings. -/
def ofLines : List Line → List Line × List PostingLines
  | [] => ([], [])
  | l :: lines =>
    let (below, postings) := ofLines lines
    if l.startsPosting then ([], ⟨l, below⟩ :: postings) else (l :: below, postings)

/-- What stands below about the posting: metadata that is indented further than it. -/
def entries (w : PostingLines) : List (String × MetaValue) :=
  w.below.filterMap (·.entryBelow? w.head.indentWidth)

/-- What stands below under the key of the line, if anything does. -/
def ownLine? (w : PostingLines) : Option MetaValue :=
  (w.entries.filter (·.1 = Metadata.lineKey)).getLast?.map (·.2)

/-- The metadata of the posting on the lines. -/
def metadata (w : PostingLines) : Metadata :=
  (({} : Metadata).setLine (w.head.tokens.head?.elim 0 (·.line))).insertAll w.entries

theorem head_mem_of_mem_ofLines {lines : List Line} {w : PostingLines}
    (h : w ∈ (ofLines lines).2) : w.head ∈ lines ∧ w.head.startsPosting := by
  induction lines with
  | nil => cases h
  | cons l lines ih =>
    rw [ofLines] at h
    simp only at h
    split at h
    · next hl =>
      rcases List.mem_cons.1 h with rfl | h
      · exact ⟨List.mem_cons_self, hl⟩
      · exact (ih h).imp_left (List.mem_cons_of_mem l)
    · exact (ih h).imp_left (List.mem_cons_of_mem l)

end PostingLines

/-- The postings that the lines of a block write. -/
def Block.postingLines (b : Block) : List PostingLines := (PostingLines.ofLines b.body).2

/-! ## Reading the lines -/

namespace Draft

variable {d d' : Draft} {l : Line}

/-- The tags and links at the front of a line change nothing else of the draft. -/
theorem exists_readTags_eq (d : Draft) (l : Line) : ∃ tags links, (d.readTags l).1 =
    { d with transaction := { d.transaction with tags := tags, links := links } } := by
  unfold readTags
  simp only
  refine List.foldlRecOn (motive := fun d' : Draft => ∃ tags links, d' =
    { d with transaction := { d.transaction with tags := tags, links := links } }) _ _
    ⟨_, _, rfl⟩ ?_
  rintro _ ⟨tags, links, rfl⟩ t _
  split
  · unfold addTag
    split <;> exact ⟨_, _, rfl⟩
  · unfold addLink
    split <;> exact ⟨_, _, rfl⟩

theorem postings_readTags (d : Draft) (l : Line) :
    (d.readTags l).1.transaction.postings = d.transaction.postings ∧
      (d.readTags l).1.postingIndent = d.postingIndent := by
  obtain ⟨tags, links, h⟩ := d.exists_readTags_eq l
  rw [h]
  exact ⟨rfl, rfl⟩

/-- What a line of a transaction does to the postings: one starts on it, or else it says something
about the last of them, if it says anything about postings. -/
inductive Takes (d : Draft) (l : Line) : Draft → Prop
  | posting {d' : Draft} (hstart : l.startsPosting) (p : Posting)
    (hline : p.metadata = ({} : Metadata).setLine (l.tokens.head?.elim 0 (·.line)))
    (hpostings : d'.transaction.postings = d.transaction.postings ++ [p])
    (hindent : d'.postingIndent = l.indentWidth) : Takes d l d'
  | entry {d' : Draft} (hstart : ¬l.startsPosting)
    (hpostings : d'.transaction.postings =
      d.transaction.postings.modify (d.transaction.postings.length - 1)
        (·.withEntries (l.entryBelow? d.postingIndent).toList))
    (hindent : d'.postingIndent = d.postingIndent) : Takes d l d'

theorem Takes.nothing (hstart : ¬l.startsPosting) (hkey : l.nextKind? ≠ some .metaKey)
    (h : d'.transaction.postings = d.transaction.postings ∧ d'.postingIndent = d.postingIndent) :
    Takes d l d' := by
  have hentry : l.entryBelow? d.postingIndent = none := by
    rw [Line.entryBelow?, if_neg fun hand => hkey hand.1]
  refine .entry hstart ?_ h.2
  rw [h.1, hentry]
  exact (List.modify_id _ _).symm

theorem Takes.addMetadata {key : String} {value : MetaValue} (hstart : ¬l.startsPosting)
    (hkey : l.nextKind? = some .metaKey)
    (h : l.keyValue.run.value? = some (.ok (key, value))) :
    Takes d l (d.addMetadata l.indentWidth key value) := by
  have hentry : l.entryBelow? d.postingIndent =
      if d.postingIndent < l.indentWidth then some (key, value) else none := by
    simp [Line.entryBelow?, hkey, h, Except.toOption]
  unfold Draft.addMetadata
  simp only
  split
  · next hdeeper =>
    refine .entry hstart ?_ rfl
    rw [hentry, if_pos hdeeper.2]
    rfl
  · next hnot =>
    refine .entry hstart ?_ rfl
    rw [hentry]
    by_cases hindent : d.postingIndent < l.indentWidth
    · have hnil : d.transaction.postings = [] := by
        by_contra hne
        exact hnot ⟨hne, hindent⟩
      rw [hnil, List.modify_nil]
    · rw [if_neg hindent]
      exact (List.modify_id _ _).symm

theorem metadata_of_posting {p : Posting} (h : l.posting.run.value? = some (.ok p)) :
    p.metadata = ({} : Metadata).setLine (l.tokens.head?.elim 0 (·.line)) := by
  unfold Line.posting at h
  obtain ⟨_, -, h⟩ := Checked.bind_eq_ok.1 h
  obtain ⟨_, -, h⟩ := Checked.bind_eq_ok.1 h
  obtain ⟨_, -, h⟩ := Checked.bind_eq_ok.1 h
  obtain ⟨_, -, h⟩ := Checked.bind_eq_ok.1 h
  obtain ⟨_, -, h⟩ := Checked.bind_eq_ok.1 h
  rw [← Checked.pure_eq_ok.1 h]

theorem takes_of_readLine (h : (d.readLine l).run.value? = some (.ok d')) : Takes d l d' := by
  cases continues_of_readLine h with
  | comment hbegins =>
    refine .nothing (Line.not_any_of_all (fun t ht => ?_) hbegins) ?_ ⟨rfl, rfl⟩
    · cases hkind : t.kind <;> simp_all [Token.endsLine, Token.isPostingFlag]
    · rw [ne_eq, Line.nextKind?_eq_some_iff]
      refine Line.not_any_of_all (fun t ht => ?_) hbegins
      cases hkind : t.kind <;> simp_all [Token.endsLine]
  | entry hbegins hread =>
    refine .addMetadata ?_ hbegins hread
    refine Line.not_any_of_any (fun t ht => ?_) (Line.nextKind?_eq_some_iff.1 hbegins)
    simp_all [Token.isPostingFlag]
  | names hbegins =>
    refine .nothing (Line.not_any_of_any (fun t ht => ?_) hbegins) ?_ (d.postings_readTags l)
    · cases hkind : t.kind <;> simp_all [isTagOrLink, Token.isPostingFlag]
    · rw [ne_eq, Line.nextKind?_eq_some_iff]
      refine Line.not_any_of_any (fun t ht => ?_) hbegins
      cases hkind : t.kind <;> simp_all [isTagOrLink]
  | posting hbegins hread => exact .posting hbegins _ (metadata_of_posting hread) rfl rfl

/-- The postings that are read from lines: the last one so far has the metadata in front of the first
new one, and each new one has what its lines say. -/
theorem postings_of_readLines {lines : List Line}
    (h : (lines.foldlM readLine d).run.value? = some (.ok d')) :
    ∃ ps : List Posting, d'.transaction.postings =
        d.transaction.postings.modify (d.transaction.postings.length - 1)
          (·.withEntries ((PostingLines.ofLines lines).1.filterMap
            (·.entryBelow? d.postingIndent))) ++ ps ∧
      List.Forall₂ (fun w p => p.metadata = w.metadata) (PostingLines.ofLines lines).2 ps := by
  induction lines generalizing d with
  | nil =>
    obtain rfl := Checked.pure_eq_ok.1 h
    exact ⟨[], by rw [List.append_nil]; exact (List.modify_id _ _).symm, .nil⟩
  | cons l lines ih =>
    rw [List.foldlM_cons] at h
    obtain ⟨next, hl, h⟩ := Checked.bind_eq_ok.1 h
    obtain ⟨ps, hps, hmetadata⟩ := ih h
    rw [PostingLines.ofLines]
    generalize PostingLines.ofLines lines = parts at hps hmetadata
    obtain ⟨below, postings⟩ := parts
    simp only at hps hmetadata ⊢
    cases takes_of_readLine hl with
    | posting hstart p hline hpostings hindent =>
      rw [if_pos hstart]
      refine ⟨p.withEntries (below.filterMap (·.entryBelow? l.indentWidth)) :: ps, ?_,
        .cons ?_ hmetadata⟩
      · rw [hps, hpostings, hindent, List.modify_eq_take_cons_drop (by simp)]
        simp only [List.length_append, List.length_singleton, Nat.add_sub_cancel,
          List.take_left, List.filterMap_nil]
        have hsame : d.transaction.postings.modify (d.transaction.postings.length - 1)
            (·.withEntries []) = d.transaction.postings := List.modify_id _ _
        rw [hsame]
        simp
      · rw [Posting.withEntries, hline]
        rfl
    | entry hstart hpostings hindent =>
      rw [if_neg hstart]
      refine ⟨ps, ?_, hmetadata⟩
      rw [hps, hpostings, hindent, List.length_modify, List.modify_modify_eq]
      congr 2
      funext p
      simp only [Posting.withEntries, Metadata.insertAll, Function.comp_apply,
        List.filterMap_cons]
      cases l.entryBelow? d.postingIndent <;> rfl

theorem postings_readHead {flag : Char} (h : (readHead flag l).run.value? = some (.ok d)) :
    d.transaction.postings = [] := by
  obtain ⟨payee, narration, n, rfl⟩ := readHead_eq_ok h
  rw [(postings_readTags _ _).1]

/-- The postings of a transaction have the metadata that their lines say. -/
theorem postings_of_read {pushed : Pushed} {flag : Char} {lines : List Line}
    (h : (read pushed flag l lines).run.value? = some (.ok d)) :
    List.Forall₂ (fun w p => p.metadata = w.metadata) (PostingLines.ofLines lines).2
      d.transaction.postings := by
  unfold read at h
  obtain ⟨first, hfirst, h⟩ := Checked.bind_eq_ok.1 h
  obtain ⟨last, hlast, h⟩ := Checked.bind_eq_ok.1 h
  obtain ⟨tags, hd⟩ := completed_foldl_addTag last pushed.tags
  rw [Checked.pure_eq_ok, hd] at h
  obtain ⟨ps, hps, hmetadata⟩ := postings_of_readLines hlast
  rw [postings_readHead hfirst, List.modify_nil, List.nil_append] at hps
  rw [← h]
  simpa only [hps] using hmetadata

end Draft

/-! ## The lines that postings tell -/

/-- The value is the number of the line. -/
def MetaValue.IsLine (v : MetaValue) (line : Nat) : Prop :=
  ∃ n : Decimal, v = .number n ∧ n.value = line

/-- The value is a number, and its integer part that of the line. -/
def MetaValue.LeadsTo (v : MetaValue) (line : Nat) : Prop :=
  ∃ n : Decimal, v = .number n ∧ n.toUInt64Value? = some line

namespace PostingLines

variable {source : Source} {b : Block} {w : PostingLines}

/-- The number of the line on which the posting starts. -/
def line (w : PostingLines) (source : Source) : Nat := source.lineOf w.head.here

/-- The line that is recorded is the one on which the posting starts. -/
theorem line_eq (hb : b ∈ Block.ofText source.text) (hw : w ∈ b.postingLines) :
    w.head.tokens.head?.elim 0 (·.line) = w.line source ∧ source.HasLine (w.line source) := by
  obtain ⟨hmem, hstart⟩ := head_mem_of_mem_ofLines hw
  obtain ⟨t, ts, htokens⟩ : ∃ t ts, w.head.tokens = t :: ts := by
    cases htokens : w.head.tokens with
    | nil => simp [Line.startsPosting, htokens] at hstart
    | cons t ts => exact ⟨t, ts, rfl⟩
  have ht : t ∈ Token.scan source.text :=
    Block.subset_scan hb (List.mem_cons_of_mem _ hmem) (htokens ▸ List.mem_cons_self)
  obtain ⟨hstart, hrecorded⟩ := Token.line_of_mem_scan ht
  have hhere : w.head.here = t.span := by rw [Line.here, htokens]
  rw [line, hhere, htokens]
  exact ⟨hrecorded, Source.hasLine_position hstart⟩

/-- What a posting tells under the key of the line: what stands there below it, or else its own
line. -/
theorem get?_metadata (hb : b ∈ Block.ofText source.text) (hw : w ∈ b.postingLines)
    (hlines : source.lineCount < 2 ^ 64) :
    ∃ n : Decimal, n.value = w.line source ∧ n.toUInt64Value? = some (w.line source) ∧
      w.metadata.get? Metadata.lineKey = w.ownLine?.or (some (.number n)) := by
  obtain ⟨hline, -, hle⟩ := line_eq hb hw
  obtain ⟨n, hget, hinteger, hvalue⟩ :=
    ({} : Metadata).get?_setLine (Nat.lt_of_le_of_lt hle hlines)
  refine ⟨n, hvalue, hinteger, ?_⟩
  rw [metadata, Metadata.get?_insertAll, hline, hget]
  rfl

end PostingLines

namespace Metadata

/-- A place in a file that was put on top of other metadata. -/
theorem location?_setFile (m : Metadata) (path : String) (location : Location) :
    (m.setFile path).location? = some location ↔
      location.file = path ∧ ∃ v, m.get? lineKey = some v ∧ v.LeadsTo location.line := by
  have hne : lineKey ≠ fileKey := by decide
  obtain ⟨file, line⟩ := location
  rw [location?, setFile, get?_insert, if_neg hne, get?_insert, if_pos rfl]
  constructor
  · intro h
    split at h
    · next n hn =>
      obtain ⟨line', hline, h⟩ := Option.bind_eq_some_iff.1 h
      obtain ⟨rfl, rfl⟩ := Location.mk.inj (Option.some.inj h)
      exact ⟨rfl, _, hn, n, rfl, hline⟩
    · cases h
  · rintro ⟨rfl, v, hv, n, rfl, hn⟩
    rw [hv]
    simp [hn]

end Metadata

namespace PostingLines

variable {source : Source} {b : Block} {w : PostingLines}

/-- A posting tells its line, in one way or another, exactly if nothing below it says otherwise. -/
theorem tells_iff {P : MetaValue → Prop}
    (hb : b ∈ Block.ofText source.text) (hw : w ∈ b.postingLines)
    (hlines : source.lineCount < 2 ^ 64)
    (hP : ∀ n : Decimal, n.value = w.line source → n.toUInt64Value? = some (w.line source) →
      P (.number n)) :
    (∃ v, w.metadata.get? Metadata.lineKey = some v ∧ P v) ↔ ∀ v, w.ownLine? = some v → P v := by
  obtain ⟨n, hvalue, hinteger, hget⟩ := get?_metadata hb hw hlines
  rw [hget]
  cases w.ownLine? with
  | none => simpa using hP n hvalue hinteger
  | some v => simp

end PostingLines

/-- The postings of a transaction and the lines that write them, in the block where the directive
starts. -/
def Source.RelatesPostings (source : Source) (R : PostingLines → Posting → Prop)
    (d : Placed Directive) (t : Transaction) : Prop :=
  ∃ b ∈ Block.ofText source.text, d.span.start = b.uncommented.head.here.start ∧
    List.Forall₂ R b.postingLines t.postings

theorem Journal.relatesPostings {source : Source} {j : Journal}
    (h : (ofText source.text).value? = some j) {d : Placed Directive} (hd : d ∈ j.directives)
    {t : Transaction} (ht : d.value.body = .transaction t) {R : PostingLines → Posting → Prop}
    (hR : ∀ b ∈ Block.ofText source.text, ∀ w ∈ b.postingLines, ∀ p : Posting,
      p.metadata = w.metadata → R w p) : source.RelatesPostings R d t := by
  obtain ⟨b, hb, hstart, pushed, l, flag, rest, draft, -, -, -, hread, rfl⟩ :=
    draft_of_mem_directives h hd ht
  refine ⟨b, hb, hstart, ?_⟩
  have hmetadata := Draft.postings_of_read hread
  rw [List.forall₂_iff_get] at hmetadata ⊢
  refine ⟨hmetadata.1, fun i hi hi' => ?_⟩
  exact hR b hb _ (List.get_mem _ _) _ (hmetadata.2 i hi hi')

/-- In a text, the line number of a posting is that of the line on which it starts exactly if no
metadata further in below it says otherwise. After loading, its place is that line in the file that
it was read from under the same condition, for which the integer part of a number is enough. -/
theorem posting_lines_iff (source : Source) (files : Files) :
    (∀ j, (Journal.ofText source.text).value? = some j → source.lineCount < 2 ^ 64 →
      ∀ d ∈ j.directives, ∀ t, d.value.body = .transaction t →
        source.RelatesPostings (fun w p =>
          (∃ v, p.metadata.get? Metadata.lineKey = some v ∧ v.IsLine (w.line source)) ↔
            ∀ v, w.ownLine? = some v → v.IsLine (w.line source)) d t) ∧
    ∀ (root : String) (loaded : Loaded), (load files root).run.value? = some (.ok loaded) →
      (∀ file ∈ loaded.sources, file.lineCount < 2 ^ 64) →
      ∀ d ∈ loaded.directives, ∃ file ∈ loaded.sources, ∃ j,
        (Journal.ofText file.text).value? = some j ∧
        ∃ written ∈ j.directives, d = written.value.inFile file.path ∧
          ∀ t, d.body = .transaction t →
            file.RelatesPostings (fun w p =>
              p.metadata.location? = some ⟨file.path, w.line file⟩ ↔
                ∀ v, w.ownLine? = some v → v.LeadsTo (w.line file)) written t := by
  constructor
  · intro j h hlines d hd t ht
    refine Journal.relatesPostings h hd ht fun b hb w hw p hp => ?_
    rw [hp]
    exact PostingLines.tells_iff hb hw hlines fun n hvalue _ => ⟨n, rfl, hvalue⟩
  · intro root loaded hload hlines d hd
    obtain ⟨file, hfile, j, hj, written, hwritten, rfl⟩ := exists_written hload hd
    refine ⟨file, hfile, j, hj, written, hwritten, rfl, fun t ht => ?_⟩
    obtain ⟨t', ht', rfl⟩ : ∃ t', written.value.body = .transaction t' ∧
        { t' with postings := t'.postings.map fun p =>
          { p with metadata := p.metadata.setFile file.path } } = t := by
      unfold Directive.inFile at ht
      cases hbody : written.value.body with
      | transaction t' =>
        simp only [hbody, Directive.Body.transaction.injEq] at ht
        exact ⟨t', rfl, ht⟩
      | _ => simp [hbody] at ht
    obtain ⟨b, hb, hstart, hrelated⟩ := Journal.relatesPostings hj hwritten ht'
      (R := fun w p => (p.metadata.setFile file.path).location? =
        some ⟨file.path, w.line file⟩ ↔
          ∀ v, w.ownLine? = some v → v.LeadsTo (w.line file)) fun b hb w hw p hp => by
        rw [hp, Metadata.location?_setFile]
        have htells := PostingLines.tells_iff hb hw (hlines file hfile)
          (P := fun v => v.LeadsTo (w.line file)) fun n _ hinteger => ⟨n, rfl, hinteger⟩
        exact (and_iff_right rfl).trans htells
    refine ⟨b, hb, hstart, ?_⟩
    rw [List.forall₂_map_right_iff]
    exact hrelated

/-- A file with two postings, below the first of which a user noted a line of a bank statement. -/
def annotated : Source where
  path := "/main"
  text := "2024-01-01 *\n  Assets:Cash\n    lineno: \"7\"\n  Assets:Bank\n"

/-- Only this file. -/
def annotatedFiles : Files where
  resolve path := .ok path
  texts := [("/main", annotated.text)]
  failure _ := .notFound

theorem posting_lines_iff_annotated :
    (∃ j, (Journal.ofText annotated.text).value? = some j ∧ annotated.lineCount < 2 ^ 64 ∧
      ∀ d ∈ j.directives, ∀ t, d.value.body = .transaction t →
        annotated.RelatesPostings (fun w p =>
          (∃ v, p.metadata.get? Metadata.lineKey = some v ∧ v.IsLine (w.line annotated)) ↔
            ∀ v, w.ownLine? = some v → v.IsLine (w.line annotated)) d t) ∧
    ∃ loaded, (load annotatedFiles "/main").run.value? = some (.ok loaded) ∧
      (∀ file ∈ loaded.sources, file.lineCount < 2 ^ 64) ∧
      ∀ d ∈ loaded.directives, ∃ file ∈ loaded.sources, ∃ j,
        (Journal.ofText file.text).value? = some j ∧
        ∃ written ∈ j.directives, d = written.value.inFile file.path ∧
          ∀ t, d.body = .transaction t →
            file.RelatesPostings (fun w p =>
              p.metadata.location? = some ⟨file.path, w.line file⟩ ↔
                ∀ v, w.ownLine? = some v → v.LeadsTo (w.line file)) written t := by
  constructor
  · have hread : ((Journal.ofText annotated.text).value?).isSome := by decide +kernel
    obtain ⟨j, hj⟩ := Option.isSome_iff_exists.1 hread
    have hlines : annotated.lineCount < 2 ^ 64 := by decide +kernel
    exact ⟨j, hj, hlines, (posting_lines_iff annotated annotatedFiles).1 j hj hlines⟩
  · obtain ⟨loaded, hload, hlines⟩ :
        ∃ loaded, (load annotatedFiles "/main").run.value? = some (.ok loaded) ∧
          ∀ file ∈ loaded.sources, file.lineCount < 2 ^ 64 :=
      exists_of_any (by decide +kernel)
    exact ⟨loaded, hload, hlines,
      (posting_lines_iff annotated annotatedFiles).2 "/main" loaded hload hlines⟩

/-- The first of the postings, which starts on line 2. -/
def annotatedPosting : Posting where
  account := "Assets:Cash"
  metadata := (({} : Metadata).setLine 2).insert Metadata.lineKey (.string "7")

/-- The other one, which starts on line 4. -/
def unmarkedPosting : Posting where
  account := "Assets:Bank"
  metadata := ({} : Metadata).setLine 4

/-- The first posting does not tell that it starts on line 2, and has no place after loading. -/
theorem posting_line_annotated :
    ((Block.ofText annotated.text).flatMap Block.postingLines).map (·.line annotated) = [2, 4] ∧
      (∃ j, (Journal.ofText annotated.text).value? = some j ∧
        j.directives.filterMap (·.value.transaction?.map (·.postings)) =
          [[annotatedPosting, unmarkedPosting]]) ∧
      annotatedPosting.metadata.get? Metadata.lineKey = some (.string "7") ∧
      (annotatedPosting.metadata.setFile annotated.path).location? = none := by
  refine ⟨by decide +kernel, ?_, by decide, by decide⟩
  have hread : (Journal.ofText annotated.text).value?.map
      (·.directives.filterMap (·.value.transaction?.map (·.postings))) =
        some [[annotatedPosting, unmarkedPosting]] := by decide +kernel
  exact Option.map_eq_some_iff.1 hread

end DoubleEntry
