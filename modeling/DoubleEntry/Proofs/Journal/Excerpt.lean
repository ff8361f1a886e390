import DoubleEntry.Proofs.Journal.Alone
import DoubleEntry.Proofs.Journal.Lines
import DoubleEntry.Proofs.Journal.RelocatedJournal

/-!
# The parts of a text

A text can be cut where one of its lines ends. What stands in front of the cut has the lines that it
has in the text, and so has what stands after it, further on.

* `Token.exists_cut`: a text up to one of its line breaks.
* `Line.exists_cut`: the texts of some first lines and of the others.
* `Block.ofLines_cut`: the lines of some first blocks and of the others.
* `Block.Excerpt`: the text of a block, and the texts in front of it and after it.
* `Block.nonempty_excerpt`: every block of a text has a text.
-/

namespace DoubleEntry

variable {r : Relocation}

/-! ## Tokens -/

namespace Token

variable {source : String} {pos : Cursor} {cs rest tail : List Char} {c : Char} {t : Token}

theorem stop_le_of_mem_scan (ht : t ∈ scan source) :
    t.span.start ≤ t.span.stop ∧ t.span.stop ≤ byteLength source.toList := by
  obtain ⟨before, piece, after, fresh, htext, -, hpiece, -⟩ := exists_piece ht
  rw [hpiece, htext]
  simp only [Cursor.token, Cursor.advance, byteLength_append]
  omega

theorem relocated_eq_self (hr : r.KeepsLines) (ht : t ∈ scan source)
    (h : ∀ offset ≤ byteLength source.toList, r.offset offset = offset) : t.relocated r = t := by
  obtain ⟨hstart, hstop⟩ := stop_le_of_mem_scan ht
  obtain ⟨kind, ⟨start, stop⟩, line, text⟩ := t
  simp only [relocated, Span.relocated, hr line, h stop hstop, h start (Nat.le_trans hstart hstop)]

theorem scan_empty : scan "" = [] := scanFrom_eq_nil rfl

/-- The first token, if it is the same with another text after it. -/
theorem scanFrom_eq_of_tail {kind : Kind} {n : Nat} (h : cs.dropWhile isBlank = c :: rest)
    (hlexeme : lexeme c (rest.take n ++ tail) = (kind, n)) (hle : n ≤ rest.length) :
    scanFrom pos (cs.takeWhile isBlank ++ (c :: (rest.take n ++ tail))) =
      let blanks := cs.takeWhile isBlank
      let piece := c :: rest.take n
      lead pos blanks kind ++ (pos.advance blanks pos.fresh).token kind piece ::
        scanFrom (pos.next blanks piece kind) tail := by
  have hblanks : ∀ d ∈ cs.takeWhile isBlank, isBlank d := fun d hd => List.mem_takeWhile_imp hd
  have hc : isBlank c = false := by
    have hhead := List.head?_dropWhile_not isBlank cs
    simpa [h] using hhead
  have hdrop : (cs.takeWhile isBlank ++ (c :: (rest.take n ++ tail))).dropWhile isBlank =
      c :: (rest.take n ++ tail) := by
    rw [List.dropWhile_append_of_pos hblanks, List.dropWhile_cons, hc, if_neg Bool.false_ne_true]
  have htake : (cs.takeWhile isBlank ++ (c :: (rest.take n ++ tail))).takeWhile isBlank =
      cs.takeWhile isBlank := by
    rw [List.takeWhile_append_of_pos hblanks, List.takeWhile_cons, hc, if_neg Bool.false_ne_true,
      List.append_nil]
  have hlen : (rest.take n).length = n := List.length_take_of_le hle
  rw [scanFrom_eq hdrop hlexeme, htake, List.take_left' hlen, List.drop_left' hlen]

/-- Up to a line break, a text has the tokens that it has there on its own. -/
theorem exists_cut {us : List Token} (hkind : t.kind = .newline) (pos : Cursor) (cs : List Char) :
    ∀ ts, scanFrom pos cs = ts ++ t :: us → ∃ before after, cs = before ++ after ∧
      scanFrom pos before = ts ++ [t] ∧ t.span.stop = pos.offset + byteLength before := by
  induction pos, cs using scanFrom.induct with
  | case1 pos cs h => simp [scanFrom_eq_nil h]
  | case2 pos cs blanks after c rest h kind n hlexeme piece ih =>
    change ∀ ts, scanFrom (pos.next blanks piece kind) _ = _ → _ at ih
    intro ts hscan
    have hcs := eq_append_of_dropWhile (n := n) h
    have hle : n ≤ rest.length := by
      have hle := lexeme_le c rest
      rwa [hlexeme] at hle
    rw [scanFrom_eq h hlexeme] at hscan
    obtain ⟨first, rfl, hfirst⟩ := exists_first hscan (by simp [hkind])
    -- The first token stays what it is if the text is cut after it or further on.
    obtain ⟨tail, left, hleft, hcut, htokens, hstop⟩ : ∃ tail left, rest.drop n = tail ++ left ∧
        lexeme c (rest.take n ++ tail) = (kind, n) ∧
        after.token kind piece :: scanFrom (pos.next blanks piece kind) tail = first ++ [t] ∧
        t.span.stop = (pos.next blanks piece kind).offset + byteLength tail := by
      cases first with
      | nil =>
        obtain ⟨rfl, -⟩ := List.cons.inj hfirst
        obtain rfl : kind = .newline := hkind
        refine ⟨[], rest.drop n, rfl, ?_, ?_, rfl⟩
        · rw [List.append_nil]
          exact lexeme_newline_take hlexeme
        · rw [scanFrom_eq_nil rfl]
          rfl
      | cons t' first =>
        obtain ⟨rfl, hothers⟩ := List.cons.inj hfirst
        obtain ⟨tail, left, hleft, htail, hstop⟩ := ih first hothers
        have hin : '\n' ∈ tail := by
          have ht : t ∈ first ++ [t] := List.mem_append_right _ List.mem_cons_self
          exact mem_of_newline (htail ▸ ht) hkind
        have hrest : rest.take n ++ tail ++ left = rest := by
          rw [List.append_assoc, ← hleft, List.take_append_drop]
        have hwhole : lexeme c (rest.take n ++ tail ++ left) = (kind, n) := by rw [hrest, hlexeme]
        refine ⟨tail, left, hleft, ?_, congrArg (_ :: ·) htail, hstop⟩
        refine (lexeme_cut ?_).symm.trans hwhole
        rw [hwhole, List.drop_left' (List.length_take_of_le hle)]
        exact hin
    refine ⟨blanks ++ (c :: (rest.take n ++ tail)), left, ?_, ?_, ?_⟩
    · rw [hcs, hleft]
      simp only [List.append_assoc, List.cons_append]
      rfl
    · rw [scanFrom_eq_of_tail h hcut hle, List.append_assoc, ← htokens]
    · rw [hstop]
      simp only [Cursor.next, Cursor.advance, piece, byteLength_append, byteLength,
        Nat.add_assoc]

end Token

/-! ## Lines -/

namespace Line

variable {source more : String} {l : Line}

theorem relocated_eq_self (hr : r.KeepsLines) (hl : l ∈ ofTokens (Token.scan source))
    (h : ∀ offset ≤ Token.byteLength source.toList, r.offset offset = offset) :
    l.relocated r = l := by
  obtain ⟨hmem, hending⟩ := of_mem_ofTokens hl
  have htoken (t : Token) (ht : t ∈ l.indent.toList ++ l.tokens) : t.relocated r = t :=
    Token.relocated_eq_self hr (hmem t ht) h
  have hindent : l.indent.map (Token.relocated r) = l.indent := by
    cases hindent : l.indent with
    | none => rfl
    | some t => rw [Option.map_some, htoken t (by simp [hindent])]
  have htokens : l.tokens.map (Token.relocated r) = l.tokens :=
    (List.map_congr_left fun t ht => htoken t (List.mem_append_right _ ht)).trans (List.map_id _)
  have hspan : l.ending.relocated r = l.ending := by
    rcases hending with ⟨t, ht, hend⟩ | ⟨t, ht, -, hend⟩
    · rw [hend]
      exact congrArg Token.span (Token.relocated_eq_self hr ht h)
    · have hstop := (Token.stop_le_of_mem_scan (hmem t (List.mem_append_right _ ht))).2
      rw [hend, Span.relocated, Span.empty, h _ hstop]
  rw [relocated, hindent, htokens, hspan]

/-- The lines of two texts, if a line begins where the second one does. -/
theorem ofTokens_scan_of_whole (h : source = "" ∨ Token.EndsLine source ∨ more = "") :
    ofTokens (Token.scan (source ++ more)) =
      ofTokens (Token.scan source) ++
        (ofTokens (Token.scan more)).map (relocated (Motion.past source).relocation) := by
  rcases h with rfl | h | rfl
  · have hself (l : Line) (hl : l ∈ ofTokens (Token.scan more)) :
        l.relocated (Motion.past "").relocation = l :=
      relocated_eq_self (fun _ => rfl) hl fun _ _ => rfl
    rw [String.empty_append, (List.map_congr_left hself).trans (List.map_id _), Token.scan_empty]
    rfl
  · exact ofTokens_scan_append h more
  · rw [String.append_empty, Token.scan_empty]
    exact (List.append_nil _).symm

theorem exists_prepend_cons {t : Token} (hkind : t.kind ≠ .newline) (l : Line) :
    ∃ l', ∀ lines, prepend t (l :: lines) = l' :: lines := by
  by_cases hindent : t.kind = .indent
  · exact ⟨{ l with indent := some t }, fun _ => by simp [prepend, hindent]⟩
  · exact ⟨{ l with tokens := t :: l.tokens }, fun _ => by simp [prepend]⟩

/-- Between two lines stands a line break. -/
theorem exists_newline {ts : List Token} {l' : Line} {lines others : List Line}
    (h : ofTokens ts = l :: lines ++ l' :: others) :
    ∃ before t after, ts = before ++ t :: after ∧ t.kind = .newline ∧
      ofTokens (before ++ [t]) = l :: lines := by
  induction ts generalizing l lines with
  | nil => cases h
  | cons t ts ih =>
    change prepend t (ofTokens ts) = _ at h
    by_cases hkind : t.kind = .newline
    · have hprepend (lines : List Line) : prepend t lines = ⟨none, [], t.span⟩ :: lines := by
        simp only [prepend, hkind]
      rw [hprepend, List.cons_append] at h
      obtain ⟨rfl, hlines⟩ := List.cons.inj h
      cases lines with
      | nil => exact ⟨[], t, ts, rfl, hkind, hprepend []⟩
      | cons l lines =>
        obtain ⟨before, t', after, rfl, hkind', hbefore⟩ := ih hlines
        refine ⟨t :: before, t', after, rfl, hkind', ?_⟩
        change prepend t (ofTokens (before ++ [t'])) = _
        rw [hbefore, hprepend]
    · cases hts : ofTokens ts with
      | nil =>
        rw [hts, prepend_nil hkind, List.cons_append] at h
        exact absurd (List.cons.inj h).2.symm (List.append_ne_nil_of_right_ne_nil _ (by simp))
      | cons l₀ lines₀ =>
        obtain ⟨l₁, hcons⟩ := exists_prepend_cons hkind l₀
        rw [hts, hcons, List.cons_append] at h
        obtain ⟨rfl, rfl⟩ := List.cons.inj h
        obtain ⟨before, t', after, rfl, hkind', hbefore⟩ := ih hts
        refine ⟨t :: before, t', after, rfl, hkind', ?_⟩
        change prepend t (ofTokens (before ++ [t'])) = _
        rw [hbefore, hcons]

/-- The texts of some first lines and of the others. -/
theorem exists_cut {lines others : List Line}
    (h : ofTokens (Token.scan source) = lines ++ others) :
    ∃ before after, source = before ++ after ∧
      (before = "" ∨ Token.EndsLine before ∨ after = "") ∧
      ofTokens (Token.scan before) = lines ∧
      (ofTokens (Token.scan after)).map (relocated (Motion.past before).relocation) = others := by
  obtain ⟨before, after, rfl, hwhole, hbefore⟩ : ∃ before after, source = before ++ after ∧
      (before = "" ∨ Token.EndsLine before ∨ after = "") ∧
      ofTokens (Token.scan before) = lines := by
    cases lines with
    | nil => exact ⟨"", source, String.empty_append.symm, .inl rfl, by rw [Token.scan_empty]; rfl⟩
    | cons l lines =>
      cases others with
      | nil => exact ⟨source, "", String.append_empty.symm, .inr (.inr rfl), by simpa using h⟩
      | cons l' others =>
        obtain ⟨ts, t, us, hts, hkind, hlines⟩ := exists_newline h
        obtain ⟨before, after, htext, hscan, hstop⟩ := Token.exists_cut hkind {} _ ts hts
        have hbefore : Token.scan (String.ofList before) = ts ++ [t] := by
          rw [Token.scan, String.toList_ofList, hscan]
        refine ⟨String.ofList before, String.ofList after, ?_, .inr (.inl ⟨t, ?_, hkind, ?_⟩), ?_⟩
        · rw [← String.ofList_append, ← htext, String.ofList_toList]
        · rw [hbefore, List.getLast?_concat]
        · rw [hstop, String.toList_ofList]
          exact Nat.zero_add _
        · rw [hbefore, hlines]
  rw [ofTokens_scan_of_whole hwhole, hbefore] at h
  exact ⟨before, after, rfl, hwhole, hbefore, List.append_cancel_left h⟩

end Line

/-! ## Blocks -/

namespace Block

variable {source : String} {first more : List Block} {b : Block}

theorem unindented_of_ofLines {lines : List Line} (h : (ofLines lines).1 = []) :
    Line.Unindented lines := by
  cases lines with
  | nil => simp [Line.Unindented]
  | cons l lines =>
    rintro _ ⟨⟩
    rw [ofLines] at h
    cases hindent : l.indent with
    | none => rfl
    | some t => simp [hindent] at h

/-- The lines of some first blocks and of the others. -/
theorem ofLines_cut {lines : List Line} (h : (ofLines lines).2 = first ++ more) :
    ∃ before after, lines = before ++ after ∧ ofLines before = ((ofLines lines).1, first) ∧
      ofLines after = ([], more) := by
  induction lines generalizing first with
  | nil =>
    obtain ⟨rfl, rfl⟩ := List.append_eq_nil_iff.1 h.symm
    exact ⟨[], [], rfl, rfl, rfl⟩
  | cons l lines ih =>
    cases hindent : l.indent.isSome with
    | true =>
      have hlines (lines : List Line) :
          ofLines (l :: lines) = (l :: (ofLines lines).1, (ofLines lines).2) := by
        simp [ofLines, hindent]
      rw [hlines] at h
      obtain ⟨before, after, rfl, hbefore, hafter⟩ := ih h
      refine ⟨l :: before, after, rfl, ?_, hafter⟩
      rw [hlines, hlines, hbefore]
    | false =>
      have hlines (lines : List Line) :
          ofLines (l :: lines) = ([], ⟨l, (ofLines lines).1⟩ :: (ofLines lines).2) := by
        simp [ofLines, hindent]
      rw [hlines] at h
      cases first with
      | nil => exact ⟨[], l :: lines, rfl, by rw [hlines]; rfl, (hlines lines).trans (congrArg _ h)⟩
      | cons b first =>
        obtain ⟨rfl, hothers⟩ := List.cons.inj h
        obtain ⟨before, after, rfl, hbefore, hafter⟩ := ih hothers
        refine ⟨l :: before, after, rfl, ?_, hafter⟩
        rw [hlines, hlines, hbefore]

/-- The text of a block, and the texts in front of it and after it. -/
structure Excerpt (source : String) (first : List Block) (b : Block) where
  before : String
  entry : String
  after : String
  text : source = before ++ (entry ++ after)
  /-- A line begins where the text of the block does. -/
  whole : before = "" ∨ Token.EndsLine before
  blocks : ofText before = first
  /-- The block, where nothing stands in front of it. -/
  alone : Block
  block : ofLines (Line.ofTokens (Token.scan entry)) = ([], [alone]) ∧
    b = alone.relocated (Motion.past before).relocation
  /-- Another block begins where the text of the block ends. -/
  ends : Token.EndsLine entry ∨ after = ""
  unindented : Line.Unindented (Line.ofTokens (Token.scan after))

/-- Every block of a text has a text. -/
theorem nonempty_excerpt (h : ofText source = first ++ b :: more) :
    Nonempty (Excerpt source first b) := by
  obtain ⟨firstLines, lines, hsource, hfirst, hlines⟩ := ofLines_cut h
  obtain ⟨before, rest, rfl, hwhole, hbefore, hrest⟩ := Line.exists_cut hsource
  rw [← hrest, ofLines_relocated, Prod.mk.injEq, List.map_eq_nil_iff, List.map_eq_cons_iff]
    at hlines
  obtain ⟨hstray, alone, others, hblocks, rfl, -⟩ := hlines
  obtain ⟨entryLines, otherLines, hlines, hentryLines, hothers⟩ :=
    ofLines_cut (show _ = [alone] ++ others from hblocks)
  obtain ⟨entry, after, rfl, hends, hentry, hafter⟩ := Line.exists_cut hlines
  rw [hstray, ← hentry] at hentryLines
  have hne (text : String) (hempty : text = "") :
      (ofLines (Line.ofTokens (Token.scan text))).2 = [] := by
    rw [hempty, Token.scan_empty]
    rfl
  refine ⟨⟨before, entry, after, rfl, ?_, ?_, alone, ⟨hentryLines, rfl⟩, ?_, ?_⟩⟩
  · refine hwhole.imp_right fun h => h.resolve_right fun hempty => ?_
    rw [hne _ hempty] at hblocks
    cases hblocks
  · rw [ofText, hbefore, hfirst]
  · refine hends.resolve_left fun hempty => ?_
    have hnil := hne _ hempty
    rw [hentryLines] at hnil
    cases hnil
  · refine unindented_of_ofLines ?_
    rw [← hafter, ofLines_relocated] at hothers
    exact List.map_eq_nil_iff.1 (Prod.mk.inj hothers).1

end Block

end DoubleEntry
