import DoubleEntry.Proofs.Journal.Pushes
import DoubleEntry.Proofs.PostingLines

/-!
# The metadata of a directive

Under a key a directive has what its own metadata lines say last, or else what is pushed. Pops end
the latest push of their key, but of several open pushes of a key the earliest counts.

* `Block.entries`: what a block writes about its directive.
* `Block.openValues`: the values under a key that some blocks leave open.
* `Journal.metadata_of_clean`: the metadata of all directives of a text, and when it is that of the
  latest open pushes.
-/

namespace DoubleEntry

/-! ## Lines with metadata -/

namespace Line

variable {l : Line} {e : String × MetaValue}

theorem pair?_eq_some_iff : l.pair? = some e ↔ l.keyValue.run.value? = some (.ok e) := by
  rw [pair?]
  constructor
  · intro h
    obtain ⟨outcome, hread, h⟩ := Option.bind_eq_some_iff.1 h
    cases outcome with
    | ok e' =>
      obtain rfl := Option.some.inj h
      exact hread
    | error _ => cases h
  · intro h
    rw [h]
    rfl

theorem pair?_eq_none (h : ¬l.tokens.head?.any (·.kind = .metaKey)) : l.pair? = none := by
  by_contra hne
  obtain ⟨e, he⟩ := Option.ne_none_iff_exists'.1 hne
  obtain ⟨_, hkey, -⟩ := Checked.bind_eq_ok.1 (pair?_eq_some_iff.1 he)
  obtain ⟨⟨t, rest⟩, htoken, -⟩ := Checked.bind_eq_ok.1 hkey
  obtain ⟨ts, htokens, hkind, -⟩ := token_eq_ok htoken
  exact h (by simp [htokens, hkind])

theorem pair?_of_atEnd (h : l.atEnd) : l.pair? = none := by
  refine pair?_eq_none (not_any_of_all (fun t ht => ?_) h)
  cases hkind : t.kind <;> simp_all [Token.endsLine]

/-- What the line says, unless it is indented further than a posting. -/
def entryBeside? (indent : Nat) (l : Line) : Option (String × MetaValue) :=
  if indent < l.indentWidth then none else l.pair?

end Line

/-- What stands below a posting about the transaction: metadata that is not indented further than
the posting. -/
def PostingLines.entriesBeside (w : PostingLines) : List (String × MetaValue) :=
  w.below.filterMap (·.entryBeside? w.head.indentWidth)

theorem PostingLines.ofLines_eq {lines : List Line} (h : ∀ l ∈ lines, ¬l.startsPosting) :
    ofLines lines = (lines, []) := by
  induction lines with
  | nil => rfl
  | cons l lines ih =>
    obtain ⟨hl, hlines⟩ := List.forall_mem_cons.1 h
    rw [ofLines, ih hlines]
    exact if_neg hl

namespace Block

/-- What a block writes about its directive, in the order of the lines. -/
def entries (b : Block) : List (String × MetaValue) :=
  (PostingLines.ofLines b.body).1.filterMap Line.pair? ++ b.postingLines.flatMap (·.entriesBeside)

/-- The last value under a key that a block writes about its directive. -/
def ownValue? (b : Block) (key : String) : Option MetaValue :=
  (b.entries.filter (·.1 = key)).getLast?.map (·.2)

/-- The values under a key that some blocks push and do not pop, the latest last. -/
def openValues (blocks : List Block) (key : String) : List MetaValue :=
  (Scope.openUnder key (blocks.filterMap metadataScope?)).map (·.1)

/-- A push adds its value to those that are open under its key, a pop ends the latest of them, and
nothing else changes. -/
def Nests (b : Block) (key : String) (values after : List MetaValue) : Prop :=
  match b.metadataScope? with
  | some (.opens k (v, _)) => after = values ++ if k = key then [v] else []
  | some (.closes k) => if k = key then ∃ v, values = after ++ [v] else after = values
  | none => after = values

end Block

/-! ## Reading the lines -/

theorem Metadata.insertAll_append (m : Metadata) (entries more : List (String × MetaValue)) :
    m.insertAll (entries ++ more) = (m.insertAll entries).insertAll more :=
  List.foldl_append

namespace Draft

variable {d d' : Draft} {l : Line}

/-- What the line says about the transaction. -/
def ownPair? (d : Draft) (l : Line) : Option (String × MetaValue) :=
  if d.transaction.postings ≠ [] ∧ d.postingIndent < l.indentWidth then none else l.pair?

theorem metadata_of_readLine (h : (d.readLine l).run.value? = some (.ok d')) :
    d'.metadata = d.metadata.insertAll (d.ownPair? l).toList := by
  have hkept (hentry : l.pair? = none) :
      d.metadata.insertAll (d.ownPair? l).toList = d.metadata := by
    rw [ownPair?, hentry, ite_self]
    rfl
  cases continues_of_readLine h with
  | comment hbegins => exact (hkept (Line.pair?_of_atEnd hbegins)).symm
  | entry hbegins hread =>
    rw [ownPair?, Line.pair?_eq_some_iff.2 hread]
    unfold addMetadata
    simp only
    split <;> rfl
  | names hbegins =>
    rw [hkept]
    · obtain ⟨tags, links, heq⟩ := d.exists_readTags_eq l
      rw [heq]
    · refine Line.pair?_eq_none (Line.not_any_of_any (fun t ht => ?_) hbegins)
      cases hkind : t.kind <;> simp_all [isTagOrLink]
  | posting hbegins =>
    rw [hkept]
    refine Line.pair?_eq_none (Line.not_any_of_any (fun t ht => ?_) hbegins)
    cases hkind : t.kind <;> simp_all [Token.isPostingFlag]

/-- The metadata that lines below the first add. -/
theorem metadata_of_readLines {lines : List Line}
    (h : (lines.foldlM readLine d).run.value? = some (.ok d')) :
    d'.metadata = d.metadata.insertAll ((PostingLines.ofLines lines).1.filterMap d.ownPair? ++
      (PostingLines.ofLines lines).2.flatMap (·.entriesBeside)) := by
  induction lines generalizing d with
  | nil =>
    obtain rfl := Checked.pure_eq_ok.1 h
    rfl
  | cons l lines ih =>
    rw [List.foldlM_cons] at h
    obtain ⟨next, hl, h⟩ := Checked.bind_eq_ok.1 h
    rw [ih h, metadata_of_readLine hl, PostingLines.ofLines]
    generalize PostingLines.ofLines lines = parts
    obtain ⟨below, postings⟩ := parts
    simp only
    cases takes_of_readLine hl with
    | posting hstart p hline hpostings hindent =>
      -- What follows up to the next posting stands below this one.
      have hbelow : next.ownPair? = Line.entryBeside? l.indentWidth := by
        funext l'
        simp [ownPair?, Line.entryBeside?, hpostings, hindent]
      have hentry : l.pair? = none := by
        refine Line.pair?_eq_none (Line.not_any_of_any (fun t ht => ?_) hstart)
        cases hkind : t.kind <;> simp_all [Token.isPostingFlag]
      rw [if_pos hstart, ownPair?, hentry, ite_self, hbelow]
      rfl
    | entry hstart hpostings hindent =>
      have hbelow : next.ownPair? = d.ownPair? := by
        funext l'
        have hnil : next.transaction.postings = [] ↔ d.transaction.postings = [] := by
          rw [← List.length_eq_zero_iff, hpostings, List.length_modify, List.length_eq_zero_iff]
        simp only [ownPair?, hindent, ne_eq, hnil]
      rw [if_neg hstart, hbelow, ← Metadata.insertAll_append, ← List.append_assoc]
      cases hentry : d.ownPair? l <;> simp [hentry]

end Draft

/-- Metadata lines of a directive that is no transaction, where nothing else follows. -/
theorem metadata_of_readMetadata {m m' : Metadata} {stop stop' : Nat} {lines leftover : List Line}
    (h : (readMetadata m stop lines).run.value? = some (.ok (m', stop', leftover)))
    (hend : ∀ l ∈ leftover, l.atEnd) :
    m' = m.insertAll (lines.filterMap Line.pair?) ∧ ∀ l ∈ lines, ¬l.startsPosting := by
  induction lines generalizing m stop with
  | nil =>
    obtain ⟨rfl, -⟩ := Prod.mk.inj (Checked.pure_eq_ok.1 h)
    exact ⟨rfl, by simp⟩
  | cons l lines ih =>
    rw [readMetadata] at h
    split at h
    · next hkey =>
      obtain ⟨⟨key, value⟩, hread, h⟩ := Checked.bind_eq_ok.1 h
      obtain ⟨rfl, hlines⟩ := ih h
      refine ⟨?_, List.forall_mem_cons.2 ⟨?_, hlines⟩⟩
      · rw [List.filterMap_cons_some (Line.pair?_eq_some_iff.2 hread)]
        rfl
      · refine Line.not_any_of_any (fun t ht => ?_) (Line.nextKind?_eq_some_iff.1 hkey)
        simp_all [Token.isPostingFlag]
    · split at h
      · next hcomment =>
        obtain ⟨_, -, h⟩ := Checked.bind_eq_ok.1 h
        obtain ⟨rfl, hlines⟩ := ih h
        refine ⟨?_, List.forall_mem_cons.2 ⟨?_, hlines⟩⟩
        · rw [List.filterMap_cons_none (Line.pair?_of_atEnd hcomment)]
        · refine Line.not_any_of_all (fun t ht => ?_) hcomment
          cases hkind : t.kind <;> simp_all [Token.endsLine, Token.isPostingFlag]
      · next hcomment =>
        obtain ⟨-, hrest⟩ := Prod.mk.inj (Checked.pure_eq_ok.1 h)
        obtain ⟨-, rfl⟩ := Prod.mk.inj hrest
        exact absurd (hend l List.mem_cons_self) hcomment

namespace Block

variable {b : Block}

/-- The metadata of a directive: what its block writes, completed by what is pushed. -/
theorem metadata_of_directive {pushed : Pushed} {d : Placed Directive} {leftover : List Line}
    (h : (b.uncommented.directive pushed).run.value? = some (.ok (d, leftover)))
    (hend : ∀ l ∈ leftover, l.atEnd) :
    d.span.start = b.uncommented.head.here.start ∧
      ∃ line, d.value.metadata = pushed.complete (({} : Metadata).insertAll b.entries) line := by
  obtain ⟨hstart, l, m, -, hreads, hmetadata⟩ := reads_of_directive h
  suffices hm : m = ({} : Metadata).insertAll b.entries from ⟨hstart, _, hm ▸ hmetadata⟩
  generalize d.value.body = body at hreads
  cases hreads with
  | transaction hstarts hread =>
    obtain ⟨first, hfirst, hread⟩ := Checked.bind_eq_ok.1 hread
    obtain ⟨last, hlast, hread⟩ := Checked.bind_eq_ok.1 hread
    obtain ⟨tags, htags⟩ := Draft.completed_foldl_addTag last pushed.tags
    rw [Checked.pure_eq_ok, htags] at hread
    have hnew : first.metadata = {} ∧ first.ownPair? = Line.pair? := by
      refine ⟨?_, funext fun l' => ?_⟩
      · obtain ⟨payee, narration, n, rfl⟩ := Draft.readHead_eq_ok hfirst
        obtain ⟨tags, links, heq⟩ := Draft.exists_readTags_eq _ _
        rw [heq]
      · simp [Draft.ownPair?, Draft.postings_readHead hfirst]
    rw [← hread, Draft.metadata_of_readLines hlast, hnew.1, hnew.2]
    rfl
  | statement hother hread =>
    obtain ⟨rfl, hlines⟩ := metadata_of_readMetadata hread hend
    have hlines : PostingLines.ofLines b.body = (b.body, []) := PostingLines.ofLines_eq hlines
    rw [entries, postingLines, hlines, List.flatMap_nil, List.append_nil]
    rfl

/-- A block makes of the values that are open under a key what its push or pop says, if it ends
nothing that was not open. -/
theorem nests_openValues {first : List Block} (key : String)
    (h : ∀ k, Scope.unmatched k ((first ++ [b]).filterMap metadataScope?) = 0) :
    b.Nests key (openValues first key) (openValues (first ++ [b]) key) := by
  rw [List.filterMap_append] at h
  unfold Nests openValues
  rw [List.filterMap_append]
  cases hscope : b.metadataScope? with
  | none => simp [hscope]
  | some s =>
    rw [List.filterMap_cons_some hscope, List.filterMap_nil] at h ⊢
    cases s with
    | opens k e =>
      rw [Scope.openUnder_opening]
      by_cases hk : k = key <;> simp [hk]
    | closes k =>
      obtain ⟨⟨e, hended⟩, hothers⟩ := Scope.openUnder_closing (h k)
      by_cases hk : k = key
      · subst hk
        exact (if_pos rfl).mpr ⟨e.1, by rw [hended]; simp⟩
      · exact (if_neg hk).mpr (by rw [hothers key (Ne.symm hk)])

end Block

/-- What is pushed under a key is the first of the values that the blocks before leave open. -/
theorem Pushed.LeftBy.value?_eq {pushed : Pushed} {blocks : List Block} (h : pushed.LeftBy blocks)
    (key : String) : pushed.value? key = (Block.openValues blocks key).head? := by
  rw [value?, Block.openValues, Scope.openUnder, h.2.eq, List.map_map, List.head?_map,
    List.head?_filter]
  rfl

/-- The metadata of a directive, in a text without errors apart from pushes that stay open. Under a
key other than that of the line it has the last value of its own metadata lines, or else the first
of the pushed values that no pop has ended; it has the last of these exactly if that is the same
value. A pop ends the latest open push of its key, after which those further out are open as
before. -/
theorem Journal.metadata_of_clean {source : String} {j : Journal}
    (h : (ofText source).value? = some j)
    (hclean : ∀ e ∈ j.errors, ∃ key, e.cause = .unclosedPush key) :
    (∀ d ∈ j.directives, ∃ first b more, Block.ofText source = first ++ b :: more ∧
      d.span.start = b.uncommented.head.here.start ∧
      ∀ key, key ≠ Metadata.lineKey →
        d.value.metadata.get? key =
          (b.ownValue? key).or (Block.openValues first key).head? ∧
        (d.value.metadata.get? key =
            (b.ownValue? key).or (Block.openValues first key).getLast? ↔
          (b.ownValue? key).isSome ∨
            (Block.openValues first key).head? = (Block.openValues first key).getLast?)) ∧
    ∀ first b more, Block.ofText source = first ++ b :: more → ∀ key,
      b.Nests key (Block.openValues first key) (Block.openValues (first ++ [b]) key) := by
  obtain ⟨⟨after, hafter, -⟩, hdirectives⟩ := reads_of_clean h hclean
  refine ⟨fun d hd => ?_, fun first b more hblocks key => ?_⟩
  · obtain ⟨first, b, more, pushed, leftover, hblocks, hpushed, hread, hend⟩ := hdirectives d hd
    obtain ⟨hstart, line, hmetadata⟩ := Block.metadata_of_directive hread hend
    refine ⟨first, b, more, hblocks, hstart, fun key hkey => ?_⟩
    have hget : d.value.metadata.get? key =
        (b.ownValue? key).or (Block.openValues first key).head? := by
      rw [hmetadata, Metadata.get?_complete, Metadata.get?_setLine_eq, if_neg hkey, Option.none_or,
        Metadata.get?_insertAll, hpushed.value?_eq, ← Block.ownValue?]
      exact congrArg (Option.or · _) Option.or_none
    refine ⟨hget, ?_⟩
    rw [hget]
    cases b.ownValue? key with
    | none => simp
    | some v => simp
  · refine Block.nests_openValues key fun k => Nat.le_zero.1 ?_
    have hall := hafter.2.matched k
    rw [hblocks, List.append_cons, List.filterMap_append] at hall
    exact hall ▸ Scope.unmatched_le_append k _ _

/-- A key that is pushed again while it is open. -/
def nestedPlaces : String :=
  "pushmeta location: \"Paris\"\npushmeta location: \"Rome\"\n2024-01-01 *\n" ++
    "popmeta location:\npopmeta location:\n"

/-- The transaction stands inside the push of `Rome`, and takes place in `Paris`. -/
theorem Journal.metadata_nestedPlaces :
    ∃ j d first b more, (ofText nestedPlaces).value? = some j ∧ j.errors = [] ∧
      j.directives = [d] ∧ Block.ofText nestedPlaces = first ++ b :: more ∧
      d.span.start = b.uncommented.head.here.start ∧ b.ownValue? "location" = none ∧
      Block.openValues first "location" = [.string "Paris", .string "Rome"] ∧
      d.value.metadata.get? "location" = some (.string "Paris") := by
  obtain ⟨j, hj, hsaid⟩ := (Option.any_eq_true _ _).1
    (show (ofText nestedPlaces).value?.any fun j =>
      j.errors = [] ∧ j.directives.map (fun d => (d.span.start, d.value.metadata.get? "location")) =
        [(53, some (.string "Paris"))] by decide +kernel)
  obtain ⟨herrors, hdirectives⟩ := of_decide_eq_true hsaid
  obtain ⟨d, hd, hmetadata⟩ := List.map_eq_singleton_iff.1 hdirectives
  obtain ⟨hstart, hplace⟩ := Prod.mk.inj hmetadata
  have hblocks : Block.openValues ((Block.ofText nestedPlaces).take 2) "location" =
        [.string "Paris", .string "Rome"] ∧
      ((Block.ofText nestedPlaces).drop 2).head?.any fun b =>
        b.uncommented.head.here.start = 53 ∧ b.ownValue? "location" = none := by decide +kernel
  obtain ⟨hopen, hthird⟩ := hblocks
  obtain ⟨b, hb, hsays⟩ := (Option.any_eq_true _ _).1 hthird
  obtain ⟨more, hmore⟩ := List.head?_eq_some_iff.1 hb
  obtain ⟨hbstart, hown⟩ := of_decide_eq_true hsays
  refine ⟨j, d, _, b, more, hj, herrors, hd, ?_, hstart.trans hbstart.symm, hown, hopen, hplace⟩
  rw [← hmore, List.take_append_drop]

theorem Journal.metadata_of_clean_nestedPlaces :
    ∃ j d, (ofText nestedPlaces).value? = some j ∧
      (∀ e ∈ j.errors, ∃ key, e.cause = .unclosedPush key) ∧ j.directives = [d] ∧
      (∃ first b more, Block.ofText nestedPlaces = first ++ b :: more ∧
        d.value.metadata.get? "location" =
          (b.ownValue? "location").or (Block.openValues first "location").head?) ∧
      ∃ first b more v, Block.ofText nestedPlaces = first ++ b :: more ∧
        b.metadataScope? = some (.closes "location") ∧
        Block.openValues first "location" =
          Block.openValues (first ++ [b]) "location" ++ [v] := by
  obtain ⟨j, hj, hsaid⟩ := (Option.any_eq_true _ _).1
    (show (ofText nestedPlaces).value?.any fun j => j.errors = [] ∧ j.directives.length = 1
      by decide +kernel)
  obtain ⟨herrors, hlength⟩ := of_decide_eq_true hsaid
  obtain ⟨d, hd⟩ := List.length_eq_one_iff.1 hlength
  have hclean : ∀ e ∈ j.errors, ∃ key, e.cause = .unclosedPush key := by simp [herrors]
  obtain ⟨hmetadata, hnests⟩ := metadata_of_clean hj hclean
  refine ⟨j, d, hj, hclean, hd, ?_, ?_⟩
  · obtain ⟨first, b, more, hblocks, -, hvalue⟩ := hmetadata d (by simp [hd])
    exact ⟨first, b, more, hblocks, (hvalue "location" (by decide)).1⟩
  · have hpop : ((Block.ofText nestedPlaces).drop 3).head?.any fun b =>
        b.metadataScope? = some (.closes "location") := by decide +kernel
    obtain ⟨b, hb, hscope⟩ := (Option.any_eq_true _ _).1 hpop
    obtain ⟨more, hmore⟩ := List.head?_eq_some_iff.1 hb
    have hblocks : Block.ofText nestedPlaces = (Block.ofText nestedPlaces).take 3 ++ b :: more := by
      rw [← hmore, List.take_append_drop]
    have hnest := hnests _ b more hblocks "location"
    rw [Block.Nests, of_decide_eq_true hscope] at hnest
    obtain ⟨v, hv⟩ := (if_pos rfl).mp hnest
    exact ⟨_, b, more, v, hblocks, of_decide_eq_true hscope, hv⟩

end DoubleEntry
