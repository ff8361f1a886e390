import DoubleEntry.Proofs.Journal.TransactionTexts

/-!
# Every string can be written

Between quotes a backslash takes the next character along, so that a quote or a backslash with a
backslash in front of it stands for itself and does not end the string. Any string can be written
that way.

* `literal`: a string in quotes, with backslashes where they are needed.
* `Token.stringRest_escaped`: where the scan of a string ends. `Line.unescape_escaped`: what it says.
* `Line.string_yields`: reading a string gives what was written.
* `every_string_written`: so wherever a token starts, and in options, notes and transactions.
-/

namespace DoubleEntry

open Token

variable {s : List Char} {v : String} {ws : List Word} {more : List Char}

/-! ## Strings in quotes -/

/-- The characters with a backslash in front of each quote and each backslash. -/
def escaped : List Char → List Char
  | [] => []
  | c :: cs => if c = '"' ∨ c = '\\' then '\\' :: c :: escaped cs else c :: escaped cs

/-- The string in quotes. -/
def literal (v : String) : String := "\"" ++ String.ofList (escaped v.toList) ++ "\""

theorem toList_literal (v : String) : (literal v).toList = '"' :: (escaped v.toList ++ ['"']) := by
  simp [literal]

theorem escaped_cons_of_ne {c : Char} (hquote : c ≠ '"') (hbackslash : c ≠ '\\') (s : List Char) :
    escaped (c :: s) = c :: escaped s := by
  rw [escaped, if_neg (by simp [hquote, hbackslash])]

/-- A string ends at the quote after its value, whatever follows. -/
theorem Token.stringRest_escaped (s more : List Char) :
    stringRest (escaped s ++ '"' :: more) = (.string, (escaped s).length + 1) := by
  induction s with
  | nil => rfl
  | cons c s ih =>
    by_cases h : c = '"' ∨ c = '\\'
    · have hbreak : c ≠ '\n' := by
        rintro rfl
        simp at h
      rw [escaped, if_pos h, List.cons_append, List.cons_append, stringRest, if_neg hbreak, ih]
      rfl
    · obtain ⟨hquote, hbackslash⟩ := not_or.1 h
      rw [escaped_cons_of_ne hquote hbackslash, List.cons_append,
        stringRest_cons hquote hbackslash, ih]
      rfl

theorem Token.readAs_literal (v : String) (more : List Char) :
    ReadAs .string (literal v).toList more := by
  refine ⟨'"', escaped v.toList ++ ['"'], toList_literal v, rfl, ?_⟩
  rw [List.append_assoc, List.singleton_append, lexeme_quote, stringRest_escaped,
    List.length_append]
  rfl

/-- The backslashes that were put in are taken out. -/
theorem Line.unescape_escaped (s : List Char) : unescape (escaped s) = s := by
  induction s with
  | nil => rfl
  | cons c s ih =>
    by_cases h : c = '"' ∨ c = '\\'
    · have hletter : c ≠ 'n' ∧ c ≠ 't' := by
        obtain rfl | rfl := h
        · decide
        · decide
      rw [escaped, if_pos h, unescape, if_neg hletter.1, if_neg hletter.2, ih]
    · obtain ⟨hquote, hbackslash⟩ := not_or.1 h
      rw [escaped_cons_of_ne hquote hbackslash, unescape, ih]
      · exact fun hc _ => hbackslash hc
      · exact fun _ _ hc _ => hbackslash hc

theorem Line.stringValue_of_literal {t : Token} (h : t.text.toList = (literal v).toList) :
    stringValue t = v := by
  have hinside : (literal v).toList.tail.dropLast = escaped v.toList := by
    rw [toList_literal, List.tail_cons, List.dropLast_concat]
  rw [stringValue, h, hinside, unescape_escaped, String.ofList_toList]

/-! ## Where a token starts -/

/-- Behind blanks, too, the characters are read as one token. -/
theorem Token.ReadAs.scan_blanks {kind : Kind} {cs blanks : List Char} (h : ReadAs kind cs more)
    (hblanks : ∀ c ∈ blanks, isBlank c) (pos : Cursor) :
    scanFrom pos (blanks ++ (cs ++ more)) =
      lead pos blanks kind ++ (pos.advance blanks pos.fresh).token kind cs ::
        scanFrom (pos.next blanks cs kind) more := by
  obtain ⟨c, tail, rfl, hblank, hlexeme⟩ := h
  have htake : (blanks ++ c :: (tail ++ more)).takeWhile isBlank = blanks :=
    takeWhile_append_of_head hblanks (by rintro d ⟨⟩; exact hblank)
  have hdrop : (blanks ++ c :: (tail ++ more)).dropWhile isBlank = c :: (tail ++ more) := by
    rw [List.dropWhile_append_of_pos hblanks, List.dropWhile_cons_of_neg (by simp [hblank])]
  rw [List.cons_append, scanFrom_eq hdrop hlexeme, htake]
  simp only [List.take_left, List.drop_left]

/-! ## Lines with strings -/

namespace Line

variable {l : Line}

/-- The word of a string. -/
def stringWord (v : String) : Word := (.string, (literal v).toList)

theorem inLine_strings (strings : List String) : InLine (strings.map stringWord) :=
  .map (by decide) (fun v => (literal v).toList) strings

theorem string_yields (h : l.words = stringWord v :: ws) : Yields l.string v ws := by
  obtain ⟨t, htext, hyields⟩ := token_yields h .string
  obtain rfl := stringValue_of_literal htext
  exact hyields.bind fun l' hl' => .pure hl'

/-- What stands behind the keyword of an option is read as its two strings. -/
theorem option_of_words {key : String} (h : l.words = [stringWord key, stringWord v])
    (start : Span) : ∃ span, l.option start = pure ⟨key, v, span⟩ := by
  obtain ⟨l₁, hkey, hl₁⟩ := string_yields h
  obtain ⟨l₂, hvalue, hl₂⟩ := string_yields hl₁
  refine ⟨start.merge l₁.here, ?_⟩
  simp only [option, hkey, hvalue, pure_bind, finish_of_words hl₂]

/-- What stands behind the keyword of a note is read as its account and its comment. -/
theorem note_of_words {account : Account}
    (h : l.words = [(.account, account.toList), stringWord v]) (place : Span) :
    l.wholeStatement .note place = pure (.note account v) := by
  obtain ⟨l₁, haccount, hl₁⟩ := account_yields h
  obtain ⟨l₂, hcomment, hl₂⟩ := string_yields hl₁
  simp only [wholeStatement, statement, haccount, hcomment, pure_bind, finish_of_words hl₂]

end Line

/-- What stands behind the flag of a transaction is read as its payee and its narration. -/
theorem Draft.readHead_of_strings {l : Line} {payee : Option String}
    (h : l.words = (payee.toList ++ [v]).map Line.stringWord) (flag : Char) :
    readHead flag l = pure { transaction := { flag, payee, narration := v } } := by
  have hvalues : l.tokens.map Line.stringValue = payee.toList ++ [v] :=
    Line.map_stringValue h fun _ _ _ htext => Line.stringValue_of_literal htext
  have hkind : ∀ t ∈ l.tokens, t.kind = .string := kind_of_words h
  have htake : l.tokens.takeWhile (·.kind = .string) = l.tokens :=
    List.takeWhile_eq_self_iff.2 fun t ht => by simp [hkind t ht]
  have hnames (d : Draft) : d.readTags (l.withTokens []) = (d, l.withTokens []) := rfl
  have hfinish : (l.withTokens []).finish = pure () := Line.finish_of_words rfl
  unfold readHead
  simp only [htake, hvalues, List.drop_length]
  cases payee with
  | none => simp only [Option.toList_none, List.nil_append, pure_bind, hnames, hfinish]
  | some payee => simp only [Option.toList_some, List.singleton_append, pure_bind, hnames, hfinish]

/-! ## Texts with strings -/

section Texts

variable {b : Bool} {ending : String}

theorem scans_literal (hmore : Scans false more ws) :
    Scans b ((literal v).toList ++ more) (Line.stringWord v :: ws) :=
  (readAs_literal v more).scans hmore

/-- The text of an option consists of that option. -/
theorem Journal.ofText_option (key v : String) (hending : ending ∈ lineEnds) :
    ∃ span, ofText ("option " ++ literal key ++ " " ++ literal v ++ ending) =
      .exact ⟨[.option ⟨key, v, span⟩]⟩ := by
  have hkeyword : ("option", Keyword.option) ∈ Keyword.all := by decide
  have hscans : Scans true ("option " ++ literal key ++ " " ++ literal v ++ ending).toList
      ([(.keyword .option, "option".toList), Line.stringWord key, Line.stringWord v] ++
        endWords ending) := by
    have hstrings := scans_literal (v := key) (b := false)
      (scans_literal (v := v) (scans_lineEnd hending)).blank
    have hall := (readAs_keyword hkeyword _).scans (b := true) hstrings.blank
    simpa using hall
  obtain ⟨tokens, ends, hscan, htokens, hends⟩ := List.map_eq_append_iff.1 (hscans {} rfl)
  obtain ⟨keyword, ts, rfl, hword, hts⟩ := List.map_eq_cons_iff.1 htokens
  have hkind : keyword.kind = .keyword .option := congrArg Prod.fst hword
  have hline : InLine ((keyword :: ts).map Token.word) := by
    rw [htokens]
    exact .cons (by decide) (Line.inLine_strings [key, v])
  obtain ⟨stop, hlines⟩ :=
    Directive.ofTokens_ending hline (List.cons_ne_nil _ _) (isEnding_of_words hends)
  obtain ⟨span, hread⟩ :=
    Line.option_of_words (l := ⟨none, ts, stop⟩) hts keyword.span
  have hstep : Block.step {} ⟨⟨none, keyword :: ts, stop⟩, []⟩ =
      .exact ⟨some (.option ⟨key, v, span⟩), {}, []⟩ := by
    have hhead : (keyword :: ts).dropWhile (·.kind = .comment) = keyword :: ts :=
      List.dropWhile_cons_of_neg (by simp [hkind])
    simp only [Block.step, Line.withTokens, hhead, hkind, hread]
    rfl
  refine ⟨span, ?_⟩
  rw [ofText, scan, hscan, ofTokens, hlines,
    Block.ofLines_indented rfl (List.forall_mem_nil _)]
  simp only [Block.stray, Block.items, hstep]
  rfl

/-- The text of a note consists of that note. -/
theorem Directive.ofText?_note {day : Date} {written : String} {account : Account}
    (hday : day.WrittenAs written) (haccount : IsAccount account.toList) (v : String)
    (hending : ending ∈ lineEnds) :
    ofText? (written ++ " note " ++ account ++ " " ++ literal v ++ ending) =
      some ⟨day, ({} : Metadata).setLine 1, .note account v⟩ := by
  have hname : ("note", Keyword.note) ∈ Keyword.all := by decide
  have hwords : InLine [(.account, account.toList), Line.stringWord v] := by
    simp [InLine, Line.stringWord]
  have hrest : Scans false ((account ++ " " ++ literal v).toList ++ ending.toList)
      ([(.account, account.toList), Line.stringWord v] ++ endWords ending) := by
    have hall := (readAs_account haccount (follow_blank _ (by decide))).scans (b := false)
      (scans_literal (v := v) (scans_lineEnd hending)).blank
    simpa using hall
  obtain ⟨l, place, hl, htext⟩ := ofText?_statement hday hname (by decide) hwords hrest
  rw [Line.note_of_words hl place] at htext
  simpa [String.append_assoc] using htext

/-- The strings of a transaction as they are written, each with a blank in front. -/
def literals (strings : List String) : String :=
  String.join (strings.map fun v => " " ++ literal v)

theorem scans_literals (strings : List String) (hmore : Scans false more ws) :
    Scans false ((literals strings).toList ++ more) (strings.map Line.stringWord ++ ws) := by
  induction strings with
  | nil => simpa [literals] using hmore
  | cons v strings ih =>
    have hall := (scans_literal (v := v) (b := false) ih).blank
    simpa [literals] using hall

/-- The tokens of a first line consist of a transaction with a payee and a narration. -/
theorem Directive.ofTokens?_strings {date sign : Token} {ts ends : List Token} {day : Date}
    {flag : Char} {payee : Option String} (hdate : date.kind = .date)
    (hday : Date.ofText? date.text = some day) (hsign : sign.word = (flagKind flag, [flag]))
    (hts : ts.map Token.word = (payee.toList ++ [v]).map Line.stringWord) (hends : IsEnding ends) :
    ofTokens? (date :: (sign :: ts ++ ends)) =
      some ⟨day, ({} : Metadata).setLine date.line,
        .transaction { flag, payee, narration := v }⟩ := by
  obtain ⟨hkind, htext⟩ := Prod.mk.inj hsign
  obtain ⟨hposting, hvalue⟩ := Line.flagValue_of_word hkind htext
  have htransaction : sign.isTransactionFlag := by
    rw [Token.isTransactionFlag, hposting]
    rfl
  have hline : InLine ((date :: sign :: ts).map Token.word) := by
    refine List.forall_mem_cons.2 ⟨by simp [Token.word, hdate], ?_⟩
    rw [List.map_cons, hsign, hts]
    exact InLine.cons (flagKind_ne flag) (Line.inLine_strings _)
  obtain ⟨stop, hlines⟩ := ofTokens_ending hline (List.cons_ne_nil _ _) hends
  have hread : ∃ span, Block.directive {} ⟨⟨none, date :: sign :: ts, stop⟩, []⟩ =
      pure ⟨⟨day, ({} : Metadata).setLine date.line,
        .transaction { flag, payee, narration := v }⟩, span⟩ >>= fun d => pure (d, []) := by
    have hhead := Draft.readHead_of_strings (l := ⟨none, ts, stop⟩) hts flag
    refine ⟨⟨date.span.start, max stop.stop date.span.stop⟩, ?_⟩
    simp only [Block.directive, Line.date, Line.dateValue, Line.token, Line.withTokens, hdate,
      hday, if_true, pure_bind, htransaction, hvalue, Draft.read, hhead]
    rfl
  obtain ⟨span, hread⟩ := hread
  exact ofTokens?_of_lines hlines rfl (List.forall_mem_nil _) rfl hdate hread

/-- The text of a transaction with a payee and a narration consists of that transaction. -/
theorem Directive.ofText?_strings {day : Date} {written : String} {flag : Char}
    (hday : day.WrittenAs written) (hflag : flag ∈ flagSigns) (payee : Option String) (v : String)
    (hending : ending ∈ lineEnds) :
    ofText? (written ++ " " ++ flag.toString ++ literals (payee.toList ++ [v]) ++ ending) =
      some ⟨day, ({} : Metadata).setLine 1, .transaction { flag, payee, narration := v }⟩ := by
  have hliterals := scans_literals (payee.toList ++ [v]) (scans_lineEnd hending)
  obtain ⟨cs, hcs⟩ : ∃ cs, (literals (payee.toList ++ [v])).toList = ' ' :: cs := by
    cases payee with
    | none => exact ⟨_, by simp [literals]; rfl⟩
    | some payee => exact ⟨_, by simp [literals]; rfl⟩
  rw [hcs] at hliterals
  have htext : (written ++ " " ++ flag.toString ++ literals (payee.toList ++ [v]) ++ ending).toList =
      written.toList ++ ' ' :: flag :: ' ' :: (cs ++ ending.toList) := by
    simp [hcs]
  have hscans : Scans false (' ' :: flag :: ' ' :: (cs ++ ending.toList))
      (((flagKind flag, [flag]) :: (payee.toList ++ [v]).map Line.stringWord) ++
        endWords ending) := by
    rw [← decide_eq_false (flagKind_ne flag).1] at hliterals
    exact ((readAs_flag hflag _).scans hliterals).blank
  have hdate := (hday.token (flag :: ' ' :: (cs ++ ending.toList))).scan_eq {}
  obtain ⟨tokens, ends, hrest, htokens, hends⟩ := List.map_eq_append_iff.1
    (hscans (({} : Cursor).advance written.toList false) rfl)
  obtain ⟨sign, ts, rfl, hsign, hts⟩ := List.map_eq_cons_iff.1 htokens
  rw [ofText?, scan, htext, hdate]
  simp only [reduceCtorEq, decide_false, hrest]
  refine ofTokens?_strings rfl ?_ hsign hts (isEnding_of_words hends)
  rw [Cursor.token, String.ofList_toList, hday.day]

end Texts

/-- **Every string can be written.** Wherever a token may start, also behind blanks, the string in
quotes is scanned as a single string token whatever follows, and that token says the string. So an
option, a note, and the payee and the narration of a transaction can be any strings. -/
theorem every_string_written (v : String) :
    (∀ (pos : Cursor) (blanks more : List Char), (∀ c ∈ blanks, isBlank c) →
      scanFrom pos (blanks ++ ((literal v).toList ++ more)) =
        lead pos blanks .string ++
          (pos.advance blanks pos.fresh).token .string (literal v).toList ::
            scanFrom (pos.next blanks (literal v).toList .string) more) ∧
    (∀ t : Token, t.text = literal v → Line.stringValue t = v) ∧
    ∀ ending ∈ lineEnds,
      (∀ key, ∃ span, Journal.ofText ("option " ++ literal key ++ " " ++ literal v ++ ending) =
        .exact ⟨[.option ⟨key, v, span⟩]⟩) ∧
      (∀ (day : Date) (written : String) (account : Account), day.WrittenAs written →
        IsAccount account.toList →
        Directive.ofText? (written ++ " note " ++ account ++ " " ++ literal v ++ ending) =
          some ⟨day, ({} : Metadata).setLine 1, .note account v⟩) ∧
      ∀ (day : Date) (written : String) (flag : Char) (payee : Option String),
        day.WrittenAs written → flag ∈ flagSigns →
        Directive.ofText?
            (written ++ " " ++ flag.toString ++ literals (payee.toList ++ [v]) ++ ending) =
          some ⟨day, ({} : Metadata).setLine 1, .transaction { flag, payee, narration := v }⟩ := by
  refine ⟨fun pos blanks more hblanks => (readAs_literal v more).scan_blanks hblanks pos,
    fun t ht => Line.stringValue_of_literal (congrArg String.toList ht),
    fun ending hending => ⟨fun key => Journal.ofText_option key v hending, ?_, ?_⟩⟩
  · intro day written account hday haccount
    exact Directive.ofText?_note hday haccount v hending
  · intro day written flag payee hday hflag
    exact Directive.ofText?_strings hday hflag payee v hending

/-- A path in quotes, in which a backslash stands before an `n`. -/
def quotedPath : String := "\"C:\\new\""

theorem every_string_written_quotedPath :
    scan "  \"\\\"C:\\\\new\\\"\"" = [⟨.indent, ⟨0, 2⟩, 1, "  "⟩,
      ⟨.string, ⟨2, 15⟩, 1, "\"\\\"C:\\\\new\\\"\""⟩] ∧
    (∃ span, Journal.ofText "option \"title\" \"\\\"C:\\\\new\\\"\"" =
      .exact ⟨[.option ⟨"title", quotedPath, span⟩]⟩) ∧
    Directive.ofText? "2024-01-02 note Assets:Cash \"\\\"C:\\\\new\\\"\"" =
      some ⟨.afterNewYear 1, ({} : Metadata).setLine 1, .note "Assets:Cash" quotedPath⟩ ∧
    Directive.ofText? "2024-01-02 * \"\\\"C:\\\\new\\\"\"" =
      some ⟨.afterNewYear 1, ({} : Metadata).setLine 1,
        .transaction { flag := '*', narration := quotedPath }⟩ := by
  obtain ⟨hscan, -, hlines⟩ := every_string_written quotedPath
  obtain ⟨hoption, hnote, htransaction⟩ := hlines "" (by decide)
  refine ⟨?_, ?_, ?_, ?_⟩
  · have htext : "  \"\\\"C:\\\\new\\\"\"".toList =
        [' ', ' '] ++ ((literal quotedPath).toList ++ []) := by decide +kernel
    rw [scan, htext, hscan {} [' ', ' '] [] (by simp [isBlank]), scanFrom_eq_nil rfl]
    decide +kernel
  · have htext : "option \"title\" \"\\\"C:\\\\new\\\"\"" =
        "option " ++ literal "title" ++ " " ++ literal quotedPath ++ "" := by decide +kernel
    rw [htext]
    exact hoption "title"
  · have htext : "2024-01-02 note Assets:Cash \"\\\"C:\\\\new\\\"\"" =
        (Date.afterNewYear 1).text ++ " note " ++ "Assets:Cash" ++ " " ++ literal quotedPath ++
          "" := by decide +kernel
    rw [htext]
    exact hnote _ _ _ (Date.writtenAs_text _) isAccount_cash
  · have htext : "2024-01-02 * \"\\\"C:\\\\new\\\"\"" =
        (Date.afterNewYear 1).text ++ " " ++ '*'.toString ++
          literals ((none : Option String).toList ++ [quotedPath]) ++ "" := by decide +kernel
    rw [htext]
    exact htransaction _ _ '*' none (Date.writtenAs_text _) (by decide)

end DoubleEntry
