import DoubleEntry.Proofs.Printed.Layout
import DoubleEntry.Proofs.Printed.Reading
import DoubleEntry.Proofs.Sample

/-!
# Reading printed transactions

A transaction that was read from a text is read back from its own text: nothing else is read there,
and nothing of the transaction is lost but the signs of zeros and the metadata of its postings.

* `Draft.read_of_words`: the words of the lines are read back as the transaction.
* `Journal.ofTokens_of_words`: nothing else is read from them.
* `Journal.ofText_transaction_text`: a transaction of a journal is read back from its text.
-/

namespace DoubleEntry

open Token

/-! ## Transactions on their lines -/

namespace Draft

variable {d : Draft} {l : Line} {p : Posting}

/-- A line that begins like a posting is read as one. -/
theorem readLine_of_starts {t : Token} {ts : List Token} (htokens : l.tokens = t :: ts)
    (h : t.isPostingFlag ∨ t.kind = .account) (d : Draft) :
    d.readLine l = l.posting >>= fun p => pure { d with
      transaction.postings := d.transaction.postings ++ [p]
      postingIndent := l.indentWidth } := by
  have hother : t.endsLine = false ∧ t.kind ≠ .metaKey ∧ isTagOrLink t = false := by
    unfold Token.isPostingFlag at h
    unfold Token.endsLine isTagOrLink
    cases hkind : t.kind <;> simp_all
  obtain ⟨hends, hkey, htag⟩ := hother
  rw [readLine, htokens]
  simp only [hends, htag, Bool.false_eq_true, if_false, if_neg hkey, if_pos h]

/-- The words of a posting are read as a posting of the transaction. -/
theorem readLine_of_words (hprintable : ∀ c ∈ p.cost, c.Printable) (h : l.words = p.words)
    (d : Draft) :
    ∃ metadata, d.readLine l = pure { d with
      transaction.postings := d.transaction.postings ++ [p.readBack metadata]
      postingIndent := l.indentWidth } := by
  obtain ⟨t, ts, htokens, hstarts⟩ : ∃ t ts, l.tokens = t :: ts ∧
      (t.isPostingFlag ∨ t.kind = .account) := by
    rw [Posting.words] at h
    cases hflag : p.flag with
    | none =>
      rw [hflag] at h
      obtain ⟨t, ts, htokens, hkind, -, -⟩ := Line.of_words_cons h
      exact ⟨t, ts, htokens, .inr hkind⟩
    | some flag =>
      rw [hflag] at h
      obtain ⟨t, ts, htokens, hkind, htext, -⟩ := Line.of_words_cons h
      exact ⟨t, ts, htokens, .inl (Line.flagValue_of_word hkind htext).1⟩
  obtain ⟨metadata, hread⟩ := Line.posting_of_words hprintable h
  refine ⟨metadata, ?_⟩
  rw [readLine_of_starts htokens hstarts, hread, pure_bind]

/-- The lines of the postings are read one after the other. -/
theorem readLines_of_words {postings : List Posting}
    (hprintable : ∀ p ∈ postings, ∀ c ∈ p.cost, c.Printable) {body : List Line}
    (h : List.Forall₂ (fun l p => l.words = p.words) body postings) (d : Draft) :
    ∃ d' read, body.foldlM readLine d = pure d' ∧
      d'.transaction = { d.transaction with postings := d.transaction.postings ++ read } ∧
      List.Forall₂ Posting.Same read postings := by
  induction h generalizing d with
  | nil => exact ⟨d, [], rfl, by rw [List.append_nil], .nil⟩
  | @cons l p body postings hl _ ih =>
    obtain ⟨hp, hpostings⟩ := List.forall_mem_cons.1 hprintable
    obtain ⟨metadata, hline⟩ := readLine_of_words hp hl d
    obtain ⟨d', read, hread, htransaction, hsame⟩ := ih hpostings { d with
      transaction.postings := d.transaction.postings ++ [p.readBack metadata]
      postingIndent := l.indentWidth }
    refine ⟨d', p.readBack metadata :: read, ?_, ?_, .cons (p.same_readBack metadata) hsame⟩
    · rw [List.foldlM_cons, hline, pure_bind, hread]
    · rw [htransaction, List.append_assoc, List.singleton_append]

/-- What a tag or link token adds. -/
def addToken (d : Draft) (t : Token) : Draft :=
  if t.kind = .tag then d.addTag (Line.signedName t) else d.addLink (Line.signedName t)

theorem signedName_of_word {t : Token} {sign : Char} {name : String}
    (h : t.text.toList = sign :: name.toList) : Line.signedName t = name := by
  rw [Line.signedName, h, List.tail_cons, String.ofList_toList]

/-- Tokens that each add a new name, to the tags or to the links. -/
theorem foldl_addToken (names : Draft → List String) (append : Draft → List String → Draft)
    {word : String → Word} (hnil : ∀ d, append d [] = d)
    (happend : ∀ d xs ys, append (append d xs) ys = append d (xs ++ ys))
    (hnames : ∀ d xs, names (append d xs) = names d ++ xs)
    (hadd : ∀ d t name, t.word = word name → name ∉ names d → addToken d t = append d [name])
    {ts : List Token} {new : List String} (h : ts.map Token.word = new.map word) {d : Draft}
    (hnodup : (names d ++ new).Nodup) : ts.foldl addToken d = append d new := by
  induction new generalizing d ts with
  | nil =>
    obtain rfl := List.map_eq_nil_iff.1 h
    exact (hnil d).symm
  | cons name new ih =>
    obtain ⟨t, ts, rfl, hword, hrest⟩ := List.map_eq_cons_iff.1 h
    have hnew : name ∉ names d := fun hmem =>
      (List.nodup_append.1 hnodup).2.2 name hmem name List.mem_cons_self rfl
    have hnodup' : (names (append d [name]) ++ new).Nodup := by
      rwa [hnames, List.append_assoc]
    rw [List.foldl_cons, hadd d t name hword hnew, ih hrest hnodup', happend, List.singleton_append]

theorem foldl_addToken_tags {ts : List Token} {tags : List String}
    (h : ts.map Token.word = tags.map fun tag => (.tag, '#' :: tag.toList)) {d : Draft}
    (hnodup : (d.transaction.tags ++ tags).Nodup) :
    ts.foldl addToken d = { d with transaction.tags := d.transaction.tags ++ tags } := by
  refine foldl_addToken (·.transaction.tags)
    (fun d tags => { d with transaction.tags := d.transaction.tags ++ tags })
    (fun d => ?_) (fun d xs ys => ?_) (fun _ _ => rfl) (fun d t tag hword hnew => ?_) h hnodup
  · simp
  · simp
  · obtain ⟨hkind, htext⟩ := Prod.mk.inj hword
    rw [addToken, if_pos hkind, signedName_of_word htext, addTag, if_neg hnew]

theorem foldl_addToken_links {ts : List Token} {links : List String}
    (h : ts.map Token.word = links.map fun link => (.link, '^' :: link.toList)) {d : Draft}
    (hnodup : (d.transaction.links ++ links).Nodup) :
    ts.foldl addToken d = { d with transaction.links := d.transaction.links ++ links } := by
  refine foldl_addToken (·.transaction.links)
    (fun d links => { d with transaction.links := d.transaction.links ++ links })
    (fun d => ?_) (fun d xs ys => ?_) (fun _ _ => rfl) (fun d t link hword hnew => ?_) h hnodup
  · simp
  · simp
  · obtain ⟨hkind, htext⟩ := Prod.mk.inj hword
    have htag : t.kind ≠ .tag := by
      rw [hkind]
      decide
    rw [addToken, if_neg htag, signedName_of_word htext, addLink, if_neg hnew]

/-- The words of some names are tokens of one kind. -/
theorem kind_of_words {α : Type} {ts : List Token} {names : List α} {kind : Token.Kind}
    {chars : α → List Char} (h : ts.map Token.word = names.map fun name => (kind, chars name)) :
    ∀ t ∈ ts, t.kind = kind := by
  intro t ht
  have hword : t.word ∈ names.map fun name => (kind, chars name) :=
    h ▸ List.mem_map_of_mem ht
  obtain ⟨name, -, hname⟩ := List.mem_map.1 hword
  exact (congrArg Prod.fst hname).symm

theorem kind_of_names {t : Transaction} {names : List Token}
    (h : names.map Token.word = (t.tags.map fun tag => (.tag, '#' :: tag.toList)) ++
      t.links.map fun link => (.link, '^' :: link.toList)) :
    ∀ u ∈ names, u.kind = .tag ∨ u.kind = .link := by
  obtain ⟨tags, links, rfl, htags, hlinks⟩ := List.map_eq_append_iff.1 h
  intro u hu
  obtain hu | hu := List.mem_append.1 hu
  · exact .inl (kind_of_words htags u hu)
  · exact .inr (kind_of_words hlinks u hu)

theorem readTags_eq (d : Draft) (l : Line) :
    d.readTags l = ((l.tokens.takeWhile isTagOrLink).foldl addToken d,
      l.withTokens (l.tokens.dropWhile isTagOrLink)) := rfl

/-- The tags and links of a transaction are read back to the end of the line. -/
theorem readTags_of_words {t : Transaction} (hwritten : t.IsWritten) {names : List Token}
    (h : names.map Token.word = (t.tags.map fun tag => (.tag, '#' :: tag.toList)) ++
      t.links.map fun link => (.link, '^' :: link.toList)) (l : Line)
    (payee : Option String) (narration : String) :
    readTags { transaction := { flag := t.flag, payee, narration } } (l.withTokens names) =
      ({ transaction := { t with payee, narration, postings := [] } }, l.withTokens []) := by
  have hname : ∀ u ∈ names, isTagOrLink u := by
    intro u hu
    unfold isTagOrLink
    obtain hkind | hkind := kind_of_names h u hu <;> rw [hkind]
  have htokens : (l.withTokens names).tokens = names := rfl
  rw [readTags_eq, htokens, List.takeWhile_eq_self_iff.2 hname, List.dropWhile_eq_nil_iff.2 hname]
  obtain ⟨tags, links, rfl, htags, hlinks⟩ := List.map_eq_append_iff.1 h
  rw [List.foldl_append, foldl_addToken_tags htags (by simpa using hwritten.tags.1),
    foldl_addToken_links hlinks (by simpa using hwritten.links.1)]
  rfl

/-- The words of the first line are read back as what the transaction says there. -/
theorem readHead_of_words {t : Transaction} (hwritten : t.IsWritten) (hprintable : t.Printable)
    (h : l.words = t.headWords) :
    readHead t.flag l = pure { transaction := { t with postings := [] } } := by
  obtain ⟨strings, names, htokens, hstrings, hnames⟩ := List.map_eq_append_iff.1 h
  have hplain : ∀ s ∈ t.payee.toList ++ [t.narration], Plain s.toList := by
    intro s hs
    obtain hs | hs := List.mem_append.1 hs
    · exact hprintable.payee s (Option.mem_toList.1 hs)
    · obtain rfl := List.mem_singleton.1 hs
      exact hprintable.narration
  have hvalues := Line.map_stringValue hstrings fun s hs _ htext =>
    Line.stringValue_of_text htext (hplain s hs)
  have htake : l.tokens.takeWhile (·.kind = .string) = strings := by
    rw [htokens]
    refine takeWhile_append_of_head (fun u hu => ?_) fun u hu => ?_
    · simp [kind_of_words hstrings u hu]
    · obtain hkind | hkind := kind_of_names hnames u (List.mem_of_head? hu) <;> simp [hkind]
  have hdrop : l.tokens.drop strings.length = names := by rw [htokens, List.drop_left]
  have hfinish : (l.withTokens []).finish = pure () := Line.finish_of_words rfl
  have hread := readTags_of_words hwritten hnames l
  unfold readHead
  simp only [htake, hvalues, hdrop]
  cases t.payee with
  | none => simp only [Option.toList_none, List.nil_append, pure_bind, hread, hfinish]
  | some payee => simp only [Option.toList_some, List.singleton_append, pure_bind, hread, hfinish]

/-- The lines of a transaction are read back as the transaction. -/
theorem read_of_words {t : Transaction} (hwritten : t.IsWritten) (hprintable : t.Printable)
    (h : l.words = t.headWords) {body : List Line}
    (hbody : List.Forall₂ (fun l p => l.words = p.words) body t.postings) :
    ∃ d, read {} t.flag l body = pure d ∧ d.transaction.Same t := by
  obtain ⟨d, postings, hread, htransaction, hsame⟩ :=
    readLines_of_words hprintable.cost hbody { transaction := { t with postings := [] } }
  refine ⟨d, ?_, ?_⟩
  · rw [read, readHead_of_words hwritten hprintable h, pure_bind, hread]
    rfl
  · rw [htransaction]
    exact ⟨rfl, rfl, rfl, rfl, rfl, hsame⟩

end Draft

/-! ## Whole texts -/

/-- The block of a transaction is read as the transaction. -/
theorem Block.step_of_words {t : Transaction} (hwritten : t.IsWritten) (hprintable : t.Printable)
    {date : Date} {l : Line} {body : List Line}
    (hl : l.words = (.date, date.toChars) :: (flagKind t.flag, [t.flag]) :: t.headWords)
    (hbody : List.Forall₂ (fun l p => l.words = p.words) body t.postings) :
    ∃ d : Placed Directive, step {} ⟨l, body⟩ = .exact ⟨some (.directive d), {}, []⟩ ∧
      d.value.date = date ∧ ∃ t', d.value.body = .transaction t' ∧ t'.Same t := by
  obtain ⟨l₁, hdate, hl₁⟩ := Line.date_yields hl
  obtain ⟨flag, rest, htokens, hkind, htext, hrest⟩ := Line.of_words_cons hl₁
  obtain ⟨hposting, hflag⟩ := Line.flagValue_of_word hkind htext
  have htransaction : flag.isTransactionFlag := by
    rw [Token.isTransactionFlag, hposting]
    rfl
  obtain ⟨draft, hread, hsame⟩ := Draft.read_of_words hwritten hprintable hrest hbody
  have hdirective : ∃ d, directive {} ⟨l, body⟩ = pure (d, []) ∧ d.value.date = date ∧
      ∃ t', d.value.body = .transaction t' ∧ t'.Same t := by
    simp only [directive, hdate, pure_bind, htokens, if_pos htransaction, hflag, hread]
    exact ⟨_, rfl, rfl, draft.transaction, rfl, hsame⟩
  obtain ⟨d, hread, hd⟩ := hdirective
  refine ⟨d, ?_, hd⟩
  obtain ⟨first, ts, htokens, hkind, -, -⟩ := Line.of_words_cons hl
  have hhead : l.withTokens (l.tokens.dropWhile (·.kind = .comment)) = l := by
    rw [htokens, List.dropWhile_cons_of_neg (by simp [hkind]), ← htokens]
    rfl
  rw [step]
  simp only [hhead, hread]
  rw [htokens]
  simp only [hkind]
  rfl

/-- The words of a transaction are read as the transaction, and nothing else. -/
theorem Journal.ofTokens_of_words {t : Transaction} (hwritten : t.IsWritten)
    (hprintable : t.Printable) {date : Date} {tokens : List Token}
    (h : tokens.map Token.word = t.words date) :
    ∃ d : Placed Directive, ofTokens tokens = .exact ⟨[.directive d]⟩ ∧ d.value.date = date ∧
      ∃ t', d.value.body = .transaction t' ∧ t'.Same t := by
  have hfirst : InLine ((.date, date.toChars) :: (flagKind t.flag, [t.flag]) :: t.headWords) :=
    .cons (by decide) (.cons (flagKind_ne t.flag) t.inLine_headWords)
  have hothers : ∀ ws ∈ t.postings.map Posting.words, ws ≠ [] ∧ InLine ws := by
    intro ws hws
    obtain ⟨p, -, rfl⟩ := List.mem_map.1 hws
    exact ⟨by simp [Posting.words], p.inLine_words⟩
  rw [Transaction.words, ← List.flatMap_map Posting.words
    (fun ws => (.newline, ['\n']) :: (.indent, [' ', ' ']) :: ws)] at h
  obtain ⟨l, body, hlines, hnone, hl, hbody⟩ :=
    Line.ofTokens_of_words ⟨List.cons_ne_nil _ _, hfirst⟩ hothers h
  obtain ⟨hindented, hbody⟩ := (List.forall₂_and_left body _).1 hbody
  have hpostings : List.Forall₂ (fun l p => l.words = p.words) body t.postings :=
    List.forall₂_map_right_iff.1 hbody
  obtain ⟨d, hstep, hd⟩ := Block.step_of_words hwritten hprintable hl hpostings
  refine ⟨d, ?_, hd⟩
  rw [ofTokens, hlines, Block.ofLines_indented hnone hindented]
  simp only [Block.stray, Block.items, hstep]
  rfl

/-- A transaction that was read from a text is read back from its own text, where there is nothing
else: the same transaction on the same day, with numbers of the same scale. Metadata is not
printed. -/
theorem Journal.ofText_transaction_text {text : String} {j : Journal}
    (h : (ofText text).value? = some j) {d : Placed Directive} (hd : d ∈ j.directives)
    {t : Transaction} (ht : d.value.body = .transaction t) (hprintable : t.Printable) :
    ∃ d' : Placed Directive, ofText (t.text d.value.date) = .exact ⟨[.directive d']⟩ ∧
      d'.value.date = d.value.date ∧ ∃ t', d'.value.body = .transaction t' ∧ t'.Same t := by
  have hwritten := isWritten_of_mem_directives h hd ht
  have hscan : (Token.scan (t.text d.value.date)).map Token.word = t.words d.value.date :=
    Transaction.scans_text hwritten hprintable d.value.date {} rfl
  exact ofTokens_of_words hwritten hprintable hscan

/-- A purchase, printed with other blanks. -/
def lotPurchaseText : String :=
  "2024-01-15  !  \"Shop\" \"Shares\" #lot ^order\n" ++
  "  * Assets:Shares 2.50 CORP \x7b# 250.0 USD,\"lot\"\x7d @ 100 USD\n" ++
  "  Assets:Cash"

/-- The purchase of a lot. -/
def lotPurchase : Transaction where
  flag := Flag.warning
  payee := some "Shop"
  narration := "Shares"
  tags := ["lot"]
  links := ["order"]
  postings := [
    { account := "Assets:Shares"
      units := some (.complete ⟨.written "2.50", "CORP"⟩)
      cost := some { total := some (.written "250.0"), currency := some "USD", label := some "lot" }
      price := some (.unit ⟨.written "100", "USD"⟩)
      flag := some Flag.okay },
    { account := "Assets:Cash" }]

theorem isWritten_lotPurchase : lotPurchase.IsWritten where
  flag := by decide
  tags := by
    have hname : IsName "lot".toList := ⟨by decide, List.all_iff_forall_prop.1 (by decide)⟩
    exact ⟨by decide, List.forall_mem_singleton.2 hname⟩
  links := by
    have hname : IsName "order".toList := ⟨by decide, List.all_iff_forall_prop.1 (by decide)⟩
    exact ⟨by decide, List.forall_mem_singleton.2 hname⟩
  postings := by
    intro p hp
    obtain rfl | rfl : p = _ ∨ p = _ := by simpa [lotPurchase] using hp
    · refine ⟨?_, isAccount_shares, ?_, ?_, ?_⟩
      · rintro flag ⟨⟩
        decide
      · rintro u ⟨⟩ c ⟨⟩
        exact isCurrency_corp
      · rintro cost ⟨⟩ c ⟨⟩
        exact isCurrency_usd
      · rintro q ⟨⟩
        exact isCurrency_usd
    · refine ⟨?_, isAccount_cash, ?_, ?_, ?_⟩
      · rintro flag ⟨⟩
      · rintro u ⟨⟩
      · rintro cost ⟨⟩
      · rintro q ⟨⟩

theorem printable_lotPurchase : lotPurchase.Printable where
  payee := by
    rintro s ⟨⟩
    exact List.all_iff_forall_prop.1 (by decide)
  narration := List.all_iff_forall_prop.1 (by decide)
  cost := by
    intro p hp cost hcost
    obtain rfl | rfl : p = _ ∨ p = _ := by simpa [lotPurchase] using hp
    · obtain rfl := Option.some.inj hcost
      refine ⟨?_, .inr ⟨rfl, by decide⟩⟩
      rintro label ⟨⟩
      exact List.all_iff_forall_prop.1 (by decide)
    · cases hcost

theorem Journal.ofText_lotPurchase_text :
    ∃ j, (ofText lotPurchaseText).value? = some j ∧ ∃ d ∈ j.directives,
      ∃ t, d.value.body = .transaction t ∧ t.Printable ∧
      ∃ d' : Placed Directive, ofText (t.text d.value.date) = .exact ⟨[.directive d']⟩ ∧
        d'.value.date = d.value.date ∧ ∃ t', d'.value.body = .transaction t' ∧ t'.Same t := by
  have hwords : (Token.scan lotPurchaseText).map Token.word =
      lotPurchase.words (.afterNewYear 14) := by decide +kernel
  obtain ⟨d, hread, -, t, ht, hsame⟩ :=
    ofTokens_of_words isWritten_lotPurchase printable_lotPurchase hwords
  have hj : (ofText lotPurchaseText).value? = some ⟨[.directive d]⟩ := by
    rw [ofText, hread]
    rfl
  have hd : d ∈ directives ⟨[.directive d]⟩ := List.mem_singleton_self d
  have hprintable : t.Printable := printable_lotPurchase.of_same hsame
  exact ⟨_, hj, d, hd, t, ht, hprintable, ofText_transaction_text hj hd ht hprintable⟩

end DoubleEntry
