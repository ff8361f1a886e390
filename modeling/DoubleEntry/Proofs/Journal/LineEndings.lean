import DoubleEntry.Proofs.Journal.Lines
import DoubleEntry.Proofs.Journal.RelocatedJournal

/-!
# Line endings

A line may end with a line feed, or with a carriage return and a line feed. Which of them it is
changes nothing that is read, but for texts in which a line feed is part of a string, or of what is
no token.

* `withReturns`: a text with carriage returns in front of all line feeds.
* `Relocation.returns`: where its places go.
* `Token.scan_withReturns`: the tokens of such a text.
* `Journal.ofText_withReturns`: its journal.
-/

namespace DoubleEntry

/-- How many line feeds stand in front of an offset. -/
def lineFeedsBefore (source : String) (offset : Nat) : Nat :=
  (Source.breaks 0 source.toList).countP (· ≤ offset)

/-- Every place goes further on by the line feeds in front of it, and stays on its line. -/
def Relocation.returns (source : String) : Relocation where
  offset offset := offset + lineFeedsBefore source offset
  line := id
  monotone offset offset' h := by
    refine Nat.add_le_add h (List.countP_mono_left fun start _ hstart => ?_)
    simp only [decide_eq_true_eq] at hstart ⊢
    exact Nat.le_trans hstart h

theorem Relocation.keepsLines_returns (source : String) : (returns source).KeepsLines :=
  fun _ => rfl

namespace Token

variable {source : String} {before cs more rest : List Char} {c : Char} {kind : Kind} {n : Nat}
  {pos : Cursor} {t : Token}

/-- The characters with a carriage return in front of every line feed. -/
def addReturns (cs : List Char) : List Char :=
  cs.flatMap fun c => if c = '\n' then ['\r', '\n'] else [c]

@[simp] theorem addReturns_append (cs more : List Char) :
    addReturns (cs ++ more) = addReturns cs ++ addReturns more := List.flatMap_append

theorem addReturns_lineFeed (cs : List Char) :
    addReturns ('\n' :: cs) = '\r' :: '\n' :: addReturns cs := rfl

theorem addReturns_cons (hc : c ≠ '\n') (cs : List Char) :
    addReturns (c :: cs) = c :: addReturns cs := by
  rw [addReturns, List.flatMap_cons, if_neg hc]
  rfl

theorem addReturns_eq_self (h : '\n' ∉ cs) : addReturns cs = cs := by
  induction cs with
  | nil => rfl
  | cons c cs ih =>
    rw [List.mem_cons, not_or] at h
    rw [addReturns_cons (Ne.symm h.1), ih h.2]

/-- A carriage return takes one byte. -/
theorem byteLength_addReturns (cs : List Char) :
    byteLength (addReturns cs) = byteLength cs + cs.count '\n' := by
  induction cs with
  | nil => rfl
  | cons c cs ih =>
    by_cases hc : c = '\n'
    · subst hc
      have hreturn : '\r'.utf8Size = 1 := by decide
      rw [addReturns_lineFeed, byteLength, byteLength, ih, hreturn, byteLength,
        List.count_cons_self]
      omega
    · rw [addReturns_cons hc, byteLength, byteLength, ih, List.count_cons_of_ne hc, Nat.add_assoc]

theorem count_addReturns (cs : List Char) : (addReturns cs).count '\n' = cs.count '\n' := by
  induction cs with
  | nil => rfl
  | cons c cs ih =>
    by_cases hc : c = '\n'
    · subst hc
      rw [addReturns_lineFeed, List.count_cons_of_ne (by decide), List.count_cons_self,
        List.count_cons_self, ih]
    · rw [addReturns_cons hc, List.count_cons_of_ne hc, List.count_cons_of_ne hc, ih]

/-! ## Pieces of the text -/

theorem not_mem_takeWhile_isBlank (cs : List Char) : '\n' ∉ cs.takeWhile isBlank := fun h =>
  absurd (List.mem_takeWhile_imp h) (by decide)

/-- The blanks at the front stay, and so does what comes after them. -/
theorem blanks_addReturns (cs : List Char) :
    (addReturns cs).takeWhile isBlank = cs.takeWhile isBlank ∧
      (addReturns cs).dropWhile isBlank = addReturns (cs.dropWhile isBlank) := by
  induction cs with
  | nil => exact ⟨rfl, rfl⟩
  | cons c cs ih =>
    by_cases hc : c = '\n'
    · subst hc
      exact ⟨rfl, rfl⟩
    · rw [addReturns_cons hc]
      by_cases hblank : isBlank c
      · simp only [List.takeWhile_cons_of_pos hblank, List.dropWhile_cons_of_pos hblank, ih,
          and_self]
      · simp only [List.takeWhile_cons_of_neg hblank, List.dropWhile_cons_of_neg hblank,
          addReturns_cons hc, and_self]

theorem take_addReturns (h : '\n' ∉ cs.take n) (hle : n ≤ cs.length) :
    (addReturns cs).take n = cs.take n ∧ (addReturns cs).drop n = addReturns (cs.drop n) := by
  have hcs : addReturns cs = cs.take n ++ addReturns (cs.drop n) := by
    have happend := addReturns_append (cs.take n) (cs.drop n)
    rwa [List.take_append_drop, addReturns_eq_self h] at happend
  have hlen : (cs.take n).length = n := List.length_take_of_le hle
  rw [hcs]
  exact ⟨List.take_left' hlen, List.drop_left' hlen⟩

/-- A string, or what is none, without a line feed. -/
theorem stringRest_addReturns (h : '\n' ∉ cs.take (stringRest cs).2)
    (hescape : ¬['\\', '\n'] <:+: cs) : stringRest (addReturns cs) = stringRest cs := by
  induction cs using stringRest.induct with
  | case1 => rfl
  | case2 tail => rfl
  | case3 => rfl
  | case4 rest => exact absurd (List.prefix_append ['\\', '\n'] rest).isInfix hescape
  | case5 c rest hc kind n hrest ih =>
    rw [addReturns_cons (by decide), addReturns_cons hc]
    simp only [stringRest, hc, if_false] at h ⊢
    rw [ih]
    · exact fun hin => h (List.mem_cons_of_mem _ (List.mem_cons_of_mem _ hin))
    · exact fun hin => hescape (hin.trans (List.suffix_append ['\\', c] rest).isInfix)
  | case6 c rest hquote hlast hescaped kind n hrest ih =>
    have hbackslash := ne_backslash hlast hescaped
    rw [stringRest_cons hquote hbackslash] at h ⊢
    rw [List.take_succ_cons, List.mem_cons, not_or] at h
    rw [addReturns_cons (Ne.symm h.1), stringRest_cons hquote hbackslash, ih h.2]
    exact fun hin => hescape (hin.trans (List.suffix_cons c rest).isInfix)

/-- A token without a line feed is the same with carriage returns in front of the line feeds after
it. -/
theorem lexeme_addReturns (hreturn : c ≠ '\r') (h : '\n' ∉ cs.take (lexeme c cs).2)
    (hescape : ¬['\\', '\n'] <:+: cs) : lexeme c (addReturns cs) = lexeme c cs := by
  by_cases hquote : c = '"'
  · subst hquote
    rw [lexeme_quote] at h
    rw [lexeme_quote, lexeme_quote, stringRest_addReturns h hescape]
  by_cases hin : '\n' ∈ cs
  · -- Either line break stops the token where the first line feed stands.
    obtain ⟨line, more, rfl, hline⟩ := List.eq_append_cons_of_mem hin
    rw [addReturns_append, addReturns_eq_self hline, addReturns_lineFeed,
      lexeme_lineEnd (.inr rfl) hquote hreturn, lexeme_lineEnd (.inl rfl) hquote hreturn]
  · rw [addReturns_eq_self hin]

/-- A token other than a line break holds no line feed, unless it is a string or no token. -/
theorem not_mem_piece (hlexeme : lexeme c rest = (kind, n)) (hfeed : c ≠ '\n') (hreturn : c ≠ '\r')
    (hstring : kind = .string ∨ kind = .error → '\n' ∉ c :: rest.take n) :
    '\n' ∉ c :: rest.take n := by
  by_cases hquote : c = '"'
  · have hkind : kind = (stringRest rest).1 := by rw [← lexeme_quote, ← hquote, hlexeme]
    rw [hkind] at hstring
    exact hstring (stringRest_kind rest).symm
  · have hrest : '\n' ∉ rest.take (lexeme c rest).2 := not_mem_take_lexeme hquote hreturn
    rw [hlexeme] at hrest
    exact List.not_mem_cons_of_ne_of_not_mem (Ne.symm hfeed) hrest

/-- The first token, if it is a line break or holds no line feed. -/
theorem lexeme_cons_addReturns (hlexeme : lexeme c rest = (kind, n)) (hreturn : c ≠ '\r')
    (hescape : ¬['\\', '\n'] <:+: rest)
    (hstring : kind = .string ∨ kind = .error → '\n' ∉ c :: rest.take n) :
    ∃ c' rest' n', addReturns (c :: rest) = c' :: rest' ∧ lexeme c' rest' = (kind, n') ∧
      c' :: rest'.take n' = addReturns (c :: rest.take n) ∧
      rest'.drop n' = addReturns (rest.drop n) ∧
      String.ofList (addReturns (c :: rest.take n)) =
        if kind = .newline then "\r\n" else String.ofList (c :: rest.take n) := by
  by_cases hfeed : c = '\n'
  · subst hfeed
    have hnewline : lexeme '\n' rest = (.newline, 0) := by simp [lexeme, isDecimalDigit_lineFeed]
    obtain ⟨rfl, rfl⟩ := Prod.mk.inj (hnewline.symm.trans hlexeme)
    exact ⟨'\r', '\n' :: addReturns rest, 1, rfl, lexeme_return _, rfl, rfl, rfl⟩
  · have hpiece := not_mem_piece hlexeme hfeed hreturn hstring
    have hkind : kind ≠ .newline := by
      rintro rfl
      obtain ⟨hc, -⟩ | ⟨hc, -⟩ := eq_of_lexeme_newline hlexeme
      · exact hfeed hc
      · exact hreturn hc
    have hrest : '\n' ∉ rest.take n := List.not_mem_of_not_mem_cons hpiece
    have hsame : lexeme c (addReturns rest) = (kind, n) := by
      rw [← hlexeme]
      exact lexeme_addReturns hreturn (by rwa [hlexeme]) hescape
    have hle : n ≤ rest.length := by simpa only [hlexeme] using lexeme_le c rest
    obtain ⟨htake, hdrop⟩ := take_addReturns hrest hle
    refine ⟨c, addReturns rest, n, addReturns_cons hfeed _, hsame, ?_, hdrop, ?_⟩
    · rw [htake, addReturns_eq_self hpiece]
    · rw [addReturns_eq_self hpiece, if_neg hkind]

/-! ## Scanning -/

/-- The token at its new place, a line break with its carriage return. -/
def withReturn (source : String) (t : Token) : Token :=
  let text := if t.kind = .newline then "\r\n" else t.text
  { t.relocated (.returns source) with text }

theorem withReturn_eq (hkind : t.kind ≠ .newline) :
    t.withReturn source = t.relocated (.returns source) := by
  simp only [withReturn, if_neg hkind]
  rfl

/-- The place that corresponds to a place of the text. -/
def Cursor.withReturns (source : String) (pos : Cursor) : Cursor :=
  ⟨(Relocation.returns source).offset pos.offset, pos.line, pos.fresh⟩

theorem offset_returns (hsource : source.toList = before ++ more) :
    (Relocation.returns source).offset (byteLength before) = byteLength (addReturns before) := by
  rw [byteLength_addReturns]
  simp only [Relocation.returns, lineFeedsBefore, hsource, Source.countP_breaks]

theorem withReturns_advance (hsource : source.toList = before ++ (cs ++ more))
    (hpos : pos.offset = byteLength before) (fresh : Bool) :
    (pos.withReturns source).advance (addReturns cs) fresh =
      (pos.advance cs fresh).withReturns source := by
  have hend : source.toList = (before ++ cs) ++ more := by rw [hsource, List.append_assoc]
  simp only [Cursor.withReturns, Cursor.advance, hpos, count_addReturns]
  rw [offset_returns hsource, ← byteLength_append, ← byteLength_append, offset_returns hend,
    addReturns_append]

theorem withReturns_token (hsource : source.toList = before ++ (cs ++ more))
    (hpos : pos.offset = byteLength before) (htext : String.ofList (addReturns cs) =
      if kind = .newline then "\r\n" else String.ofList cs) :
    (pos.withReturns source).token kind (addReturns cs) =
      (pos.token kind cs).withReturn source := by
  have hend : source.toList = (before ++ cs) ++ more := by rw [hsource, List.append_assoc]
  simp only [Cursor.token, Cursor.withReturns, withReturn, relocated, Span.relocated, htext, hpos]
  rw [← byteLength_append, offset_returns hend, offset_returns hsource, addReturns_append,
    byteLength_append]
  rfl

section Step

variable {blanks piece : List Char} (hblanks : '\n' ∉ blanks)

include hblanks

theorem withReturns_next (hsource : source.toList = before ++ (blanks ++ (piece ++ more)))
    (hpos : pos.offset = byteLength before) :
    (pos.withReturns source).next blanks (addReturns piece) kind =
      (pos.next blanks piece kind).withReturns source := by
  have hafter := withReturns_advance hsource hpos pos.fresh
  have hsource' : source.toList = (before ++ blanks) ++ (piece ++ more) := by
    rw [hsource, List.append_assoc]
  have hpos' : (pos.advance blanks pos.fresh).offset = byteLength (before ++ blanks) := by
    rw [byteLength_append, ← hpos]
    rfl
  rw [addReturns_eq_self hblanks] at hafter
  unfold Cursor.next
  rw [← withReturns_advance hsource' hpos', ← hafter]
  rfl

theorem lead_withReturns (hsource : source.toList = before ++ (blanks ++ more))
    (hpos : pos.offset = byteLength before) :
    lead (pos.withReturns source) blanks kind =
      (lead pos blanks kind).map (withReturn source) := by
  have htoken : (pos.withReturns source).token .indent (addReturns blanks) =
      (pos.token .indent blanks).withReturn source :=
    withReturns_token hsource hpos (by rw [addReturns_eq_self hblanks]; rfl)
  rw [addReturns_eq_self hblanks] at htoken
  unfold lead
  rw [htoken, show (pos.withReturns source).fresh = pos.fresh from rfl]
  split <;> rfl

end Step

/-- The tokens of a text in which no line feed is part of a string, or of what is no token. -/
theorem scanFrom_addReturns (hsource : source.toList = before ++ cs)
    (hpos : pos.offset = byteLength before) (hreturn : '\r' ∉ cs)
    (hescape : ¬['\\', '\n'] <:+: cs)
    (htokens : ∀ t ∈ scanFrom pos cs, t.kind = .string ∨ t.kind = .error → '\n' ∉ t.text.toList) :
    scanFrom (pos.withReturns source) (addReturns cs) =
      (scanFrom pos cs).map (withReturn source) := by
  revert before
  induction pos, cs using scanFrom.induct with
  | case1 pos cs h =>
    intro before hsource hpos
    rw [scanFrom_eq_nil h, scanFrom_eq_nil]
    · rfl
    · rw [(blanks_addReturns cs).2, h]
      rfl
  | case2 pos cs blanks after c rest h kind n hlexeme piece ih =>
    intro before hsource hpos
    have hcs : cs = blanks ++ (piece ++ rest.drop n) := eq_append_of_dropWhile h
    have hsuffix : rest.drop n <:+ cs := by
      rw [hcs, ← List.append_assoc]
      exact List.suffix_append _ _
    have hrest : c :: rest <:+ cs := h ▸ List.dropWhile_suffix isBlank
    have hscan : scanFrom pos cs = _ := scanFrom_eq h hlexeme
    have hmem : after.token kind piece ∈ scanFrom pos cs := by
      rw [hscan]
      exact List.mem_append_right _ List.mem_cons_self
    have hstring (hkind : kind = .string ∨ kind = .error) : '\n' ∉ piece := by
      simpa [Cursor.token] using htokens _ hmem hkind
    have hc : c ≠ '\r' := by
      rintro rfl
      exact hreturn (hrest.subset List.mem_cons_self)
    obtain ⟨c', rest', n', hcons, hlexeme', hpiece, hdrop, htext⟩ :=
      lexeme_cons_addReturns hlexeme hc
        (fun hin => hescape (hin.trans ((List.suffix_cons c rest).trans hrest).isInfix)) hstring
    have hfirst : (addReturns cs).dropWhile isBlank = c' :: rest' := by
      rw [(blanks_addReturns cs).2, h, hcons]
    -- The blanks, the token and what is left follow each other in both texts.
    have hblanks : '\n' ∉ blanks := not_mem_takeWhile_isBlank cs
    have hsource₁ : source.toList = before ++ (blanks ++ (piece ++ rest.drop n)) := by
      rw [hsource, hcs]
    have hsource₂ : source.toList = (before ++ blanks) ++ (piece ++ rest.drop n) := by
      rw [hsource₁, List.append_assoc]
    have hsource₃ : source.toList = (before ++ blanks ++ piece) ++ rest.drop n := by
      rw [hsource₂, List.append_assoc _ piece]
    have hpos₂ : after.offset = byteLength (before ++ blanks) := by
      rw [byteLength_append, ← hpos]
      rfl
    have hafter := withReturns_advance hsource₁ hpos pos.fresh
    rw [addReturns_eq_self hblanks] at hafter
    rw [scanFrom_eq hfirst hlexeme', (blanks_addReturns cs).1, hpiece, hdrop, hscan,
      List.map_append, List.map_cons]
    refine congrArg₂ _ (lead_withReturns hblanks hsource₁ hpos) (congrArg₂ _ ?_ ?_)
    · rw [show (pos.withReturns source).fresh = pos.fresh from rfl, hafter]
      exact withReturns_token hsource₂ hpos₂ htext
    · rw [withReturns_next hblanks hsource₁ hpos]
      refine ih (fun hin => hreturn (hsuffix.subset hin))
        (fun hin => hescape (hin.trans hsuffix.isInfix)) (fun t ht => htokens t ?_) hsource₃ ?_
      · rw [hscan]
        exact List.mem_append_right _ (List.mem_cons_of_mem _ ht)
      · rw [byteLength_append, ← hpos₂]
        rfl

end Token

/-! ## Texts -/

/-- The text with a carriage return in front of every line feed. -/
def withReturns (source : String) : String := String.ofList (Token.addReturns source.toList)

namespace Token

variable {source : String} {t : Token}

/-- What carriage returns in front of the line feeds leave as it is: text in which no line feed is
part of a string or of what is no token, and none stands after a backslash. -/
structure TakesReturns (source : String) : Prop where
  noReturn : '\r' ∉ source.toList
  noLineFeed : ∀ t ∈ scan source, t.kind = .string ∨ t.kind = .error → '\n' ∉ t.text.toList
  noEscape : ¬['\\', '\n'] <:+: source.toList

theorem scan_withReturns (h : TakesReturns source) :
    scan (withReturns source) = (scan source).map (withReturn source) := by
  have htext : source.toList = [] ++ source.toList := rfl
  have hstart : ({} : Cursor).withReturns source = {} := by
    simpa [Cursor.withReturns, addReturns, byteLength] using offset_returns htext
  have hscan : scanFrom (({} : Cursor).withReturns source) (addReturns source.toList) =
      (scan source).map (withReturn source) :=
    scanFrom_addReturns htext rfl h.noReturn h.noEscape h.noLineFeed
  rw [scan, withReturns, String.toList_ofList, ← hscan, hstart]

/-- A token takes as many bytes as its text. -/
theorem width_of_mem_scan (ht : t ∈ scan source) :
    t.span.stop - t.span.start = byteLength t.text.toList := by
  obtain ⟨before, piece, after, fresh, -, -, hpiece, -⟩ := exists_piece ht
  rw [hpiece]
  simp only [Cursor.token, String.toList_ofList]
  omega

end Token

namespace Line

variable {source : String}

theorem prepend_withReturn (t : Token) (lines : List Line) :
    prepend (t.withReturn source) lines = prepend (t.relocated (.returns source)) lines := by
  by_cases hkind : t.kind = .newline
  · have hkind' : (t.withReturn source).kind = .newline := hkind
    have hkind'' : (t.relocated (.returns source)).kind = .newline := hkind
    simp only [prepend, hkind', hkind'']
    rfl
  · rw [Token.withReturn_eq hkind]

theorem ofTokens_withReturn (ts : List Token) :
    ofTokens (ts.map (Token.withReturn source)) =
      (ofTokens ts).map (relocated (.returns source)) := by
  rw [← ofTokens_relocated]
  induction ts with
  | nil => rfl
  | cons t ts ih =>
    simp only [List.map_cons, ofTokens, List.foldr_cons] at ih ⊢
    rw [ih, prepend_withReturn]

/-- The blanks in front of a line are a token of their own kind. -/
theorem kind_of_indent {tokens : List Token} {l : Line} (hl : l ∈ ofTokens tokens) {t : Token}
    (ht : l.indent = some t) : t.kind = .indent := by
  induction tokens generalizing l with
  | nil => cases hl
  | cons u tokens ih =>
    change l ∈ prepend u (ofTokens tokens) at hl
    generalize ofTokens tokens = lines at hl ih
    unfold prepend at hl
    split at hl
    · rcases List.mem_cons.1 hl with rfl | hl
      · cases ht
      · exact ih hl ht
    · rename_i first rest hkind
      rcases List.mem_cons.1 hl with rfl | hl
      · obtain rfl := Option.some.inj ht
        exact hkind
      · exact ih (List.mem_cons_of_mem _ hl) ht
    · rename_i first rest _ _
      rcases List.mem_cons.1 hl with rfl | hl
      · exact ih (l := first) List.mem_cons_self ht
      · exact ih (List.mem_cons_of_mem _ hl) ht
    · obtain rfl := List.mem_singleton.1 hl
      cases ht

/-- No line moves further in: the blanks in front of it keep their text. -/
theorem keepsIndent_returns (h : Token.TakesReturns source) {l : Line}
    (hl : l ∈ ofTokens (Token.scan source)) : l.KeepsIndent (.returns source) := by
  cases hindent : l.indent with
  | none => simp [KeepsIndent, indentWidth, relocated, hindent]
  | some t =>
    have hmem : t ∈ Token.scan source := (of_mem_ofTokens hl).mem t (by simp [hindent])
    have hkind : t.kind ≠ .newline := by simp [kind_of_indent hl hindent]
    have hmem' : t.relocated (.returns source) ∈ Token.scan (withReturns source) := by
      rw [Token.scan_withReturns h, ← Token.withReturn_eq hkind]
      exact List.mem_map_of_mem hmem
    have hwidth := Token.width_of_mem_scan hmem
    have hwidth' := Token.width_of_mem_scan hmem'
    simp only [KeepsIndent, indentWidth, relocated, hindent, Option.map_some, Option.elim_some]
    rw [hwidth, hwidth', text_relocated]

end Line

/-- Line endings do not matter: with carriage returns in front of its line feeds, a text says the
same, every place further on by the line feeds in front of it. -/
theorem Journal.ofText_withReturns {source : String} (h : Token.TakesReturns source) {j : Journal}
    (hj : (ofText source).value? = some j) :
    ∃ j', (ofText (withReturns source)).value? = some j' ∧
      j'.directives = j.directives.map (Placed.relocated (.returns source)) ∧
      j'.options = j.options.map (OptionLine.relocated (.returns source)) ∧
      j'.inclusions = j.inclusions.map (IncludeLine.relocated (.returns source)) ∧
      j'.plugins = j.plugins.map (PluginLine.relocated (.returns source)) ∧
      j'.errors = j.errors.map (SyntaxError.relocated (.returns source)) := by
  have hlines : Line.ofTokens (Token.scan (withReturns source)) =
      (Line.ofTokens (Token.scan source)).map (Line.relocated (.returns source)) := by
    rw [Token.scan_withReturns h, Line.ofTokens_withReturn]
  have hvalue := value?_relocated (Relocation.keepsLines_returns source) hlines
    (fun l hl => Line.keepsIndent_returns h hl) hj
  exact ⟨_, hvalue, by simp, by simp, by simp, by simp, by simp⟩

/-- The transaction is the same with carriage returns in its text, which is two bytes longer. -/
theorem Journal.ofText_withReturns_rent :
    ∃ j', (ofText (withReturns rentText)).value? = some j' ∧
      j'.directives = [⟨rent.value, ⟨0, 36⟩⟩] ∧ j'.options = [] ∧ j'.inclusions = [] ∧
      j'.plugins = [] ∧ j'.errors = [] := by
  have htakes : Token.TakesReturns rentText :=
    ⟨by decide +kernel, by decide +kernel, by decide +kernel⟩
  have hj : (ofText rentText).value? = some ⟨[.directive rent]⟩ := by decide +kernel
  obtain ⟨j', hj', hdirectives, hothers⟩ := ofText_withReturns htakes hj
  have hspan : rent.span.relocated (.returns rentText) = ⟨0, 36⟩ := by decide +kernel
  refine ⟨j', hj', ?_, hothers⟩
  rw [hdirectives, ← hspan]
  rfl

end DoubleEntry
