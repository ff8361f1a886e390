import DoubleEntry.Proofs.Journal.Pushes

/-!
# The tags of a transaction

A transaction has the tags that stand on its first line and on lines below that begin with a tag or
a link, and after them the tags that are pushed. None is repeated.

* `Block.names`: the tags, or the links, that a block writes.
* `Draft.Names`: the tags and links that a draft was given.
* `Journal.tags_of_clean`: the tags and links of all transactions of a text, and what it reports of
  the pushes that stay open.
-/

namespace DoubleEntry

/-! ## Names without repetitions -/

theorem eraseDups_concat (names : List String) (name : String) : (names ++ [name]).eraseDups =
    if name ∈ names.eraseDups then names.eraseDups else names.eraseDups ++ [name] := by
  rw [List.eraseDups_append]
  by_cases h : name ∈ names
  · simp [h, List.removeAll]
  · simp [h, List.removeAll, List.eraseDups_cons]

/-! ## Written names -/

namespace Token

variable {kind : Kind} {t : Token} {ts : List Token}

/-- The names of the tokens of a kind. -/
def names (kind : Kind) (ts : List Token) : List String :=
  (ts.filter (·.kind = kind)).map Line.signedName

theorem names_append (kind : Kind) (ts us : List Token) :
    names kind (ts ++ us) = names kind ts ++ names kind us := by
  rw [names, List.filter_append, List.map_append]
  rfl

theorem names_cons_of_eq (h : t.kind = kind) :
    names kind (t :: ts) = Line.signedName t :: names kind ts := by
  rw [names, List.filter_cons_of_pos (by simpa using h)]
  rfl

theorem names_eq_nil (h : ∀ t ∈ ts, t.kind ≠ kind) : names kind ts = [] := by
  rw [names, List.filter_eq_nil_iff.2 (by simpa using h)]
  rfl

theorem names_cons_of_ne (h : t.kind ≠ kind) : names kind (t :: ts) = names kind ts := by
  rw [names, List.filter_cons_of_neg (by simpa using h)]
  rfl

end Token

/-- Whether tags and links begin on the line. -/
def Line.startsNames (l : Line) : Bool := l.tokens.head?.any Draft.isTagOrLink

/-- The tags, or the links, that a block writes: on its first line, and on the lines below that
begin with a tag or a link. -/
def Block.names (kind : Token.Kind) (b : Block) : List String :=
  (b.head :: b.body.filter (·.startsNames)).flatMap fun l => Token.names kind l.tokens

namespace Draft

variable {d d' : Draft} {tags links : List String} {l : Line}

/-- The draft was given these tags and links. -/
structure Names (d : Draft) (tags links : List String) : Prop where
  tags : d.transaction.tags = tags.eraseDups
  links : d.transaction.links = links.eraseDups

theorem Names.addTag (h : d.Names tags links) (tag : String) :
    (d.addTag tag).Names (tags ++ [tag]) links := by
  unfold Draft.addTag
  constructor
  · rw [eraseDups_concat, ← h.tags]
    split <;> rfl
  · rw [← h.links]
    split <;> rfl

theorem Names.addLink (h : d.Names tags links) (link : String) :
    (d.addLink link).Names tags (links ++ [link]) := by
  unfold Draft.addLink
  constructor
  · rw [← h.tags]
    split <;> rfl
  · rw [eraseDups_concat, ← h.links]
    split <;> rfl

theorem Names.addTags (h : d.Names tags links) (pushed : List (String × Span)) :
    (pushed.foldl (fun d tag => d.addTag tag.1) d).Names (tags ++ pushed.map (·.1)) links := by
  induction pushed generalizing d tags with
  | nil => simpa using h
  | cons tag pushed ih => simpa using ih (h.addTag tag.1)

theorem Names.addTokens (h : d.Names tags links) {ts : List Token} (hts : ∀ t ∈ ts, isTagOrLink t) :
    (ts.foldl (fun d t => if t.kind = .tag then d.addTag (Line.signedName t)
      else d.addLink (Line.signedName t)) d).Names
      (tags ++ Token.names .tag ts) (links ++ Token.names .link ts) := by
  induction ts generalizing d tags links with
  | nil => simpa [Token.names] using h
  | cons t ts ih =>
    obtain ⟨ht, hts⟩ := List.forall_mem_cons.1 hts
    rw [List.foldl_cons]
    by_cases htag : t.kind = .tag
    · rw [if_pos htag, Token.names_cons_of_eq htag, Token.names_cons_of_ne (by simp [htag])]
      simpa using ih (h.addTag _) hts
    · have hlink : t.kind = .link := by
        unfold isTagOrLink at ht
        split at ht
        · next hkind => exact absurd hkind htag
        · next hkind => exact hkind
        · cases ht
      rw [if_neg htag, Token.names_cons_of_ne htag, Token.names_cons_of_eq hlink]
      simpa using ih (h.addLink _) hts

/-- The tags and links at the front of a line, if nothing else follows. -/
theorem Names.of_readTags (h : d.Names tags links)
    (hfinish : (d.readTags l).2.finish.run.value? = some (.ok ())) :
    (d.readTags l).1.Names (tags ++ Token.names .tag l.tokens)
      (links ++ Token.names .link l.tokens) := by
  have hfront : ∀ t ∈ l.tokens.takeWhile isTagOrLink, isTagOrLink t :=
    fun t ht => List.mem_takeWhile_imp ht
  have hnames {kind : Token.Kind} (hkind : kind ≠ .comment) :
      Token.names kind l.tokens = Token.names kind (l.tokens.takeWhile isTagOrLink) := by
    have hrest : Token.names kind (l.tokens.dropWhile isTagOrLink) = [] :=
      Token.names_eq_nil fun t ht => by
        rw [Line.finish_eq_ok hfinish t ht]
        exact Ne.symm hkind
    conv_lhs => rw [← List.takeWhile_append_dropWhile (p := isTagOrLink) (l := l.tokens)]
    rw [Token.names_append, hrest, List.append_nil]
  rw [hnames (by decide), hnames (by decide)]
  exact h.addTokens hfront

theorem names_addMetadata (d : Draft) (indent : Nat) (key : String) (value : MetaValue) :
    (d.addMetadata indent key value).transaction.tags = d.transaction.tags ∧
      (d.addMetadata indent key value).transaction.links = d.transaction.links := by
  unfold addMetadata
  simp only
  split <;> exact ⟨rfl, rfl⟩

/-- A line below the first adds names only where it begins with a tag or a link. -/
theorem Names.of_readLine (h : d.Names tags links)
    (hread : (d.readLine l).run.value? = some (.ok d')) :
    d'.Names (tags ++ if l.startsNames then Token.names .tag l.tokens else [])
      (links ++ if l.startsNames then Token.names .link l.tokens else []) := by
  have hkept {d' : Draft} (hstarts : ¬l.startsNames)
      (hsame : d'.transaction.tags = d.transaction.tags ∧
        d'.transaction.links = d.transaction.links) :
      d'.Names (tags ++ if l.startsNames then Token.names .tag l.tokens else [])
        (links ++ if l.startsNames then Token.names .link l.tokens else []) := by
    rw [if_neg hstarts, if_neg hstarts, List.append_nil, List.append_nil]
    exact ⟨hsame.1.trans h.tags, hsame.2.trans h.links⟩
  cases continues_of_readLine hread with
  | comment hbegins =>
    refine hkept (Line.not_any_of_all (fun t ht => ?_) hbegins) ⟨rfl, rfl⟩
    cases hkind : t.kind <;> simp_all [Token.endsLine, isTagOrLink]
  | entry hbegins =>
    refine hkept ?_ (d.names_addMetadata _ _ _)
    refine Line.not_any_of_any (fun t ht => ?_) (Line.nextKind?_eq_some_iff.1 hbegins)
    simp_all [isTagOrLink]
  | names hbegins hfinish =>
    have hstarts : l.startsNames := hbegins
    rw [if_pos hstarts, if_pos hstarts]
    exact h.of_readTags hfinish
  | posting hbegins =>
    refine hkept (Line.not_any_of_any (fun t ht => ?_) hbegins) ⟨rfl, rfl⟩
    cases hkind : t.kind <;> simp_all [Token.isPostingFlag, isTagOrLink]

/-- The names that lines below the first add. -/
theorem Names.of_readLines {body : List Line} (h : d.Names tags links)
    (hread : (body.foldlM readLine d).run.value? = some (.ok d')) :
    d'.Names (tags ++ (body.filter (·.startsNames)).flatMap fun l => Token.names .tag l.tokens)
      (links ++ (body.filter (·.startsNames)).flatMap fun l => Token.names .link l.tokens) := by
  induction body generalizing d tags links with
  | nil =>
    obtain rfl := Checked.pure_eq_ok.1 hread
    simpa using h
  | cons l body ih =>
    rw [List.foldlM_cons] at hread
    obtain ⟨next, hl, hread⟩ := Checked.bind_eq_ok.1 hread
    have hbody := ih (h.of_readLine hl) hread
    by_cases hstarts : l.startsNames
    · rw [if_pos hstarts, if_pos hstarts] at hbody
      simpa [List.filter_cons_of_pos hstarts] using hbody
    · rw [if_neg hstarts, if_neg hstarts] at hbody
      simpa [List.filter_cons_of_neg hstarts] using hbody

/-- The strings on the first line are no names. -/
theorem names_of_readHead {flag : Char} (h : (readHead flag l).run.value? = some (.ok d)) :
    d.Names (Token.names .tag l.tokens) (Token.names .link l.tokens) := by
  unfold readHead at h
  simp only [pure_bind] at h
  have hstrings : ∀ t ∈ l.tokens.takeWhile (·.kind = .string), t.kind = .string :=
    fun t ht => by simpa using List.mem_takeWhile_imp ht
  obtain ⟨more, hmore⟩ := List.takeWhile_prefix (l := l.tokens) (·.kind = .string)
  generalize l.tokens.takeWhile (·.kind = .string) = strings at h hstrings hmore
  rw [← hmore, List.drop_left] at h
  have hnames {kind : Token.Kind} (hkind : kind ≠ .string) :
      Token.names kind l.tokens = Token.names kind more := by
    have hnone : Token.names kind strings = [] :=
      Token.names_eq_nil fun t ht => by
        rw [hstrings t ht]
        exact Ne.symm hkind
    rw [← hmore, Token.names_append, hnone, List.nil_append]
  rw [hnames (by decide), hnames (by decide)]
  have hread {t : Transaction} (htags : t.tags = []) (hlinks : t.links = [])
      (h : ((readTags { transaction := t } (l.withTokens more)).2.finish >>= fun _ =>
        pure (readTags { transaction := t } (l.withTokens more)).1 : Reading Draft).run.value? =
          some (.ok d)) : d.Names (Token.names .tag more) (Token.names .link more) := by
    obtain ⟨_, hfinish, h⟩ := Checked.bind_eq_ok.1 h
    obtain rfl := Checked.pure_eq_ok.1 h
    have hnew : ({ transaction := t } : Draft).Names [] [] := ⟨htags, hlinks⟩
    exact hnew.of_readTags hfinish
  split at h
  · exact hread rfl rfl h
  · exact hread rfl rfl h
  · exact hread rfl rfl h
  · obtain ⟨_, hthrow, -⟩ := Checked.bind_eq_ok.1 h
    exact absurd hthrow Checked.throw_ne_ok

end Draft

namespace Block

variable {b : Block} {kind : Token.Kind}

/-- Comments in front of the first line are no names. -/
theorem names_uncommented (hkind : kind ≠ .comment) :
    Token.names kind b.uncommented.head.tokens = Token.names kind b.head.tokens := by
  have hcomments : Token.names kind (b.head.tokens.takeWhile (·.kind = .comment)) = [] :=
    Token.names_eq_nil fun t ht => by
      have hcomment : t.kind = .comment := by simpa using List.mem_takeWhile_imp ht
      rw [hcomment]
      exact Ne.symm hkind
  have hsplit : b.head.tokens =
      b.head.tokens.takeWhile (·.kind = .comment) ++ b.uncommented.head.tokens :=
    List.takeWhile_append_dropWhile.symm
  rw [hsplit, Token.names_append, hcomments, List.nil_append]

/-- A flag is no name. -/
theorem Starts.names_eq {l rest : Line} {flag : Char} (h : Starts l flag rest)
    (hkind : kind = .tag ∨ kind = .link) :
    Token.names kind l.tokens = Token.names kind rest.tokens := by
  cases h with
  | string => rfl
  | @flag t ts htokens hflag =>
    rw [htokens]
    refine Token.names_cons_of_ne fun ht => ?_
    obtain rfl | rfl := hkind <;> simp [Token.isTransactionFlag, Token.isPostingFlag, ht] at hflag

/-- The tags and links of a transaction are those that its block writes, and after them the tags
that are pushed. -/
theorem names_of_directive {pushed : Pushed} {d : Placed Directive} {leftover : List Line}
    (h : (b.uncommented.directive pushed).run.value? = some (.ok (d, leftover)))
    {t : Transaction} (ht : d.value.body = .transaction t) :
    t.tags = (b.names .tag ++ pushed.tags.map (·.1)).eraseDups ∧
      t.links = (b.names .link).eraseDups := by
  obtain ⟨-, l, flag, rest, draft, hdate, hstarts, hread, rfl⟩ := draft_of_directive h ht
  have hhead {kind : Token.Kind} (hkind : kind = .tag ∨ kind = .link) :
      Token.names kind b.head.tokens = Token.names kind rest.tokens := by
    obtain ⟨t, ts, htokens, hday, rfl⟩ := Line.date_eq_ok hdate
    have hne : t.kind ≠ kind ∧ kind ≠ .comment := by
      obtain rfl | rfl := hkind <;> simp [hday]
    rw [← names_uncommented hne.2, htokens, Token.names_cons_of_ne hne.1]
    exact hstarts.names_eq hkind
  obtain ⟨first, hfirst, hread⟩ := Checked.bind_eq_ok.1 hread
  obtain ⟨last, hlast, hread⟩ := Checked.bind_eq_ok.1 hread
  obtain rfl := Checked.pure_eq_ok.1 hread
  have hnames := ((Draft.names_of_readHead hfirst).of_readLines hlast).addTags pushed.tags
  rw [hnames.tags, hnames.links, names, names, List.flatMap_cons, List.flatMap_cons,
    hhead (.inl rfl), hhead (.inr rfl)]
  exact ⟨rfl, rfl⟩

end Block

/-- A tag is reported as often as it is pushed. -/
theorem Pushed.countP_unclosed (pushed : Pushed) (tag : String) :
    pushed.unclosed.countP (·.cause = .unclosedPush (.tag tag)) =
      pushed.tags.countP (·.1 = tag) := by
  rw [unclosed, List.countP_append, List.countP_map, Nat.add_eq_left.2]
  · exact List.countP_congr (by simp)
  · -- The rest tells of metadata.
    exact List.countP_eq_zero.2 (List.forall_mem_map.2 fun _ _ => by simp)

/-- A tag is reported at the place of one of its pushes. -/
theorem Pushed.mem_tags_of_unclosed {pushed : Pushed} {e : SyntaxError} {tag : String}
    (he : e ∈ pushed.unclosed) (hcause : e.cause = .unclosedPush (.tag tag)) :
    (tag, e.span) ∈ pushed.tags := by
  obtain he | he := List.mem_append.1 he
  · obtain ⟨⟨_, span⟩, hmem, rfl⟩ := List.mem_map.1 he
    cases hcause
    exact hmem
  · obtain ⟨_, -, rfl⟩ := List.mem_map.1 he
    cases hcause

/-- Pushed tags have an exact scope. In a text without errors, apart from pushes that stay open, the
tags of a transaction are those that its block writes and after them those that are open in front of
it, in the order of their earliest open pushes: the tags that were pushed more often than popped.
Its links are those that its block writes. None is repeated. What is reported of tags are the pushes
that no pop below ends, each at its place. -/
theorem Journal.tags_of_clean {source : String} {j : Journal}
    (h : (ofText source).value? = some j)
    (hclean : ∀ e ∈ j.errors, ∃ key, e.cause = .unclosedPush key) :
    (∀ d ∈ j.directives, ∀ t, d.value.body = .transaction t →
      ∃ first b more, Block.ofText source = first ++ b :: more ∧
        d.span.start = b.uncommented.head.here.start ∧
        t.tags = (b.names .tag ++
          (Scope.openAfter (first.filterMap Block.tagScope?)).map (·.1)).eraseDups ∧
        (∀ tag, tag ∈ t.tags ↔ tag ∈ b.names .tag ∨
          (first.filterMap Block.tagScope?).countP (Scope.isClosing tag) <
            (first.filterMap Block.tagScope?).countP (Scope.isOpening tag)) ∧
        t.links = (b.names .link).eraseDups) ∧
    (∃ others, j.errors =
        (Scope.openAfter ((Block.ofText source).filterMap Block.tagScope?)).map
          (fun e => ⟨.unclosedPush (.tag e.1), e.2⟩) ++ others ∧
      ∀ e ∈ others, ∃ key, e.cause = .unclosedPush (.metadata key)) ∧
    ∀ tag, j.errors.countP (·.cause = .unclosedPush (.tag tag)) +
        ((Block.ofText source).filterMap Block.tagScope?).countP (Scope.isClosing tag) =
          ((Block.ofText source).filterMap Block.tagScope?).countP (Scope.isOpening tag) ∧
      ∀ e ∈ j.errors, e.cause = .unclosedPush (.tag tag) →
        ∃ b ∈ Block.ofText source, b.tagScope? = some (.opens tag e.span) := by
  obtain ⟨⟨after, hafter, herrors⟩, hdirectives⟩ := reads_of_clean h hclean
  refine ⟨fun d hd t ht => ?_, ?_, fun tag => ⟨?_, fun e he hcause => ?_⟩⟩
  · obtain ⟨first, b, more, pushed, leftover, hblocks, ⟨hpushed, -⟩, hread, -⟩ := hdirectives d hd
    obtain ⟨htags, hlinks⟩ := Block.names_of_directive hread ht
    refine ⟨first, b, more, hblocks, (Block.draft_of_directive hread ht).1, ?_, fun tag => ?_,
      hlinks⟩
    · rw [hpushed.eq, htags]
    · rw [htags, List.mem_eraseDups, List.mem_append, hpushed.mem_iff]
  · rw [hafter.1.eq, herrors]
    exact ⟨_, rfl, List.forall_mem_map.2 fun _ _ => ⟨_, rfl⟩⟩
  · rw [herrors, after.countP_unclosed, hafter.1.countP_add]
  · have hopen := Pushed.mem_tags_of_unclosed (herrors ▸ he) hcause
    rw [← hafter.1.eq] at hopen
    exact List.mem_filterMap.1 (Scope.opens_mem_of_mem_openAfter hopen)

/-- A tag that is pushed twice and popped once, and another that is pushed and written by hand. -/
def pushedTwice : String :=
  "pushtag #trip\npushtag #work\npushtag #trip\n" ++
    "2024-01-01 * \"Dinner\" #food ^bill\n  #work ^bill\n  Assets:Cash\n" ++
    "poptag #trip\npoptag #work\n2024-01-02 * \"Taxi\"\n"

theorem Journal.tags_of_clean_pushedTwice :
    ∃ j, (ofText pushedTwice).value? = some j ∧
      (∀ e ∈ j.errors, ∃ key, e.cause = .unclosedPush key) ∧
      j.directives.filterMap (·.value.transaction?.map (·.tags)) =
        [["food", "work", "trip"], ["trip"]] ∧
      j.errors = [⟨.unclosedPush (.tag "trip"), ⟨8, 13⟩⟩] ∧
      (∃ b ∈ Block.ofText pushedTwice, b.tagScope? = some (.opens "trip" ⟨8, 13⟩)) ∧
      j.errors.countP (·.cause = .unclosedPush (.tag "trip")) + 1 = 2 := by
  obtain ⟨j, hj, hsaid⟩ := (Option.any_eq_true _ _).1
    (show (ofText pushedTwice).value?.any fun j =>
      j.directives.filterMap (·.value.transaction?.map (·.tags)) =
          [["food", "work", "trip"], ["trip"]] ∧
        j.errors = [⟨.unclosedPush (.tag "trip"), ⟨8, 13⟩⟩] by decide +kernel)
  obtain ⟨htags, herrors⟩ := of_decide_eq_true hsaid
  have hclean : ∀ e ∈ j.errors, ∃ key, e.cause = .unclosedPush key := by
    rw [herrors]
    exact List.forall_mem_singleton.2 ⟨_, rfl⟩
  obtain ⟨-, -, hreported⟩ := tags_of_clean hj hclean
  obtain ⟨hcount, hplaces⟩ := hreported "trip"
  obtain ⟨hpops, hpushes⟩ :
      ((Block.ofText pushedTwice).filterMap Block.tagScope?).countP (Scope.isClosing "trip") = 1 ∧
        ((Block.ofText pushedTwice).filterMap Block.tagScope?).countP
          (Scope.isOpening "trip") = 2 := by
    generalize hscopes : (Block.ofText pushedTwice).filterMap Block.tagScope? = scopes
    have hread : scopes.map (fun s => (s.isClosing "trip", s.isOpening "trip")) =
        [(false, true), (false, false), (false, true), (true, false), (false, false)] := by
      rw [← hscopes]
      decide +kernel
    have hfst := congrArg (·.countP (·.1)) hread
    have hsnd := congrArg (·.countP (·.2)) hread
    rw [List.countP_map] at hfst hsnd
    exact ⟨hfst, hsnd⟩
  rw [hpops, hpushes] at hcount
  refine ⟨j, hj, hclean, htags, herrors, ?_, hcount⟩
  exact hplaces ⟨.unclosedPush (.tag "trip"), ⟨8, 13⟩⟩ (by simp [herrors]) rfl

end DoubleEntry
