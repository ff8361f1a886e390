import DoubleEntry.Proofs.Ends
import DoubleEntry.Proofs.Printed.Layout
import DoubleEntry.Proofs.Printed.Reading

/-!
# Texts of one directive

What a text comes to that writes a single directive on a line: a date, a keyword, and what stands
behind the keyword.

* `Reading.ok?`: what a reading gives if it ends without an error.
* `Directive.ofText?`: the directive that a text consists of.
* `Directive.ofTokens?_of_lines`: a text of one block consists of what reading the block gives.
* `Directive.ofText?_statement`: a text of one line consists of what its keyword says, if that takes
  the rest of the line.
-/

namespace DoubleEntry

open Token

/-! ## Readings without an error -/

namespace Reading

variable {α β : Type}

/-- What the reading gives, if it ends without an error. -/
def ok? (r : Reading α) : Option α := r.run.value?.bind Except.toOption

@[simp] theorem ok?_pure (a : α) : ok? (pure a) = some a := rfl

@[simp] theorem ok?_throw (e : SyntaxError) : ok? (throw e : Reading α) = none := rfl

@[simp] theorem ok?_lift (x : Checked α) : ok? (liftM x : Reading α) = x.value? := by
  cases x <;> rfl

@[simp] theorem ok?_bind (r : Reading α) (f : α → Reading β) :
    ok? (r >>= f) = (ok? r).bind fun a => ok? (f a) := by
  rw [ok?, Checked.SameOutcome.value?_run_bind, ok?]
  cases r.run.value? with
  | none => rfl
  | some outcome => cases outcome <;> rfl

@[simp] theorem ok?_map (f : α → β) (r : Reading α) : ok? (f <$> r) = (ok? r).map f := by
  rw [map_eq_pure_bind, ok?_bind, Option.map_eq_bind]
  rfl

/-- A reading that gives something without an error is gone on with from there. -/
theorem ofReading_value? (pushed : Pushed) (r : Reading α) (done : α → Step) :
    (Step.ofReading pushed r done).value? =
      r.run.value?.map fun outcome =>
        match outcome with
        | .ok a => done a
        | .error e => .fail pushed e := by
  rw [Step.ofReading, Checked.value?_bind, Option.map_eq_bind]
  refine congrArg _ (funext fun outcome => ?_)
  cases outcome <;> rfl

end Reading

/-! ## A single directive -/

/-- The directive that the journal consists of, if there is nothing else in it. -/
def Journal.only? (j : Journal) : Option Directive :=
  match j.items with
  | [.directive d] => some d.value
  | _ => none

/-- The line of the text on which the first of the tokens stands. -/
def Line.number (l : Line) : Nat := l.tokens.head?.elim 0 (·.line)

/-- What a line says behind its keyword, if that takes the rest of the line. -/
def Line.wholeStatement (k : Keyword) (place : Span) (l : Line) : Reading Directive.Body := do
  let (body, rest) ← l.statement k place
  rest.finish
  return body

namespace Directive

/-- The directive that some tokens consist of, if there is neither an error nor anything else. -/
def ofTokens? (tokens : List Token) : Option Directive :=
  (Journal.ofTokens tokens).value?.bind Journal.only?

/-- The directive that a text consists of, if there is neither an error nor anything else. -/
def ofText? (source : String) : Option Directive := ofTokens? (scan source)

theorem exists_placed_of_ofText? {source : String} {d : Directive} (h : ofText? source = some d) :
    ∃ placed : Placed Directive,
      (Journal.ofText source).value? = some ⟨[.directive placed]⟩ ∧ placed.value = d := by
  obtain ⟨⟨items⟩, hj, honly⟩ := Option.bind_eq_some_iff.1 h
  unfold Journal.only? at honly
  split at honly
  · next placed hitems =>
    obtain rfl := hitems
    exact ⟨placed, hj, Option.some.inj honly⟩
  · cases honly

variable {l : Line} {body : List Line} {t : Token} {ts tokens : List Token}

/-- Tokens of one block consist of what reading the block gives, if it takes all of its lines. -/
theorem ofTokens?_of_lines (hlines : Line.ofTokens tokens = l :: body) (hl : l.indent = none)
    (hbody : ∀ l ∈ body, l.indent.isSome) (ht : l.tokens = t :: ts) (hdate : t.kind = .date)
    {r : Reading (Placed Directive)}
    (hread : Block.directive {} ⟨l, body⟩ = r >>= fun d => pure (d, [])) :
    ofTokens? tokens = r.ok?.map (·.value) := by
  have hhead : l.withTokens (l.tokens.dropWhile (·.kind = .comment)) = l := by
    rw [ht, List.dropWhile_cons_of_neg (by simp [hdate]), ← ht]
    rfl
  have hstep : Block.step {} ⟨l, body⟩ =
      Step.ofReading {} (r >>= fun d => pure (d, [])) fun p =>
        ⟨some (.directive p.1), {}, p.2⟩ := by
    rw [Block.step]
    simp only [hhead, hread]
    rw [ht]
    simp only [hdate]
  simp only [ofTokens?, Journal.ofTokens, hlines, Block.ofLines_indented hl hbody, Block.stray,
    Block.items, hstep, Checked.value?_bind, Reading.ofReading_value?,
    Checked.SameOutcome.value?_run_bind, Reading.ok?]
  cases r.run.value? with
  | none => rfl
  | some outcome => cases outcome <;> rfl

/-- The tokens of a line break, or none at the end of the text. -/
def IsEnding (ending : List Token) : Prop := ending = [] ∨ ∃ t, ending = [t] ∧ t.kind = .newline

/-- A line that ends as one does. -/
theorem ofTokens_ending (h : InLine (ts.map Token.word)) (hne : ts ≠ []) {ending : List Token}
    (hending : IsEnding ending) : ∃ stop, Line.ofTokens (ts ++ ending) = [⟨none, ts, stop⟩] := by
  obtain rfl | ⟨t, rfl, ht⟩ := hending
  · rw [List.append_nil]
    exact Line.ofTokens_last h hne
  · exact ⟨t.span, Line.ofTokens_newline h ht []⟩

/-- The tokens of one line consist of what the keyword says. -/
theorem ofTokens?_statement {date keyword : Token} {k : Keyword} {ending : List Token}
    (hdate : date.kind = .date) (hkeyword : keyword.kind = .keyword k) (hk : k ≠ .txn)
    (hts : InLine (ts.map Token.word)) (hending : IsEnding ending) :
    ∃ l : Line, l.tokens = ts ∧ ofTokens? (date :: keyword :: (ts ++ ending)) =
      (Date.ofText? date.text).bind fun day => (l.wholeStatement k keyword.span).ok?.map fun body =>
        ⟨day, ({} : Metadata).setLine date.line, body⟩ := by
  have hline : InLine ((date :: keyword :: ts).map Token.word) := by
    refine List.forall_mem_cons.2 ⟨?_, List.forall_mem_cons.2 ⟨?_, hts⟩⟩
    · simp [Token.word, hdate]
    · simp [Token.word, hkeyword]
  obtain ⟨stop, hlines⟩ := ofTokens_ending hline (List.cons_ne_nil _ _) hending
  refine ⟨⟨none, ts, stop⟩, rfl, ?_⟩
  have hflag : keyword.isTransactionFlag = false := by
    simp [Token.isTransactionFlag, Token.isPostingFlag, hkeyword, hk]
  have hread : ∃ span, Block.directive {} ⟨⟨none, date :: keyword :: ts, stop⟩, []⟩ =
      (do
        let day ← Line.dateValue date
        let body ← (⟨none, ts, stop⟩ : Line).wholeStatement k keyword.span
        return ⟨⟨day, ({} : Metadata).setLine date.line, body⟩, span⟩) >>=
          fun d => pure (d, []) := by
    refine ⟨⟨date.span.start, max stop.stop date.span.stop⟩, ?_⟩
    simp only [Block.directive, Line.date, Line.token, Line.withTokens, hdate, if_true, pure_bind,
      bind_assoc, hflag, Bool.false_eq_true, if_false, hkeyword, reduceCtorEq,
      Line.wholeStatement, readMetadata]
    rfl
  obtain ⟨span, hread⟩ := hread
  rw [← List.cons_append, ← List.cons_append,
    ofTokens?_of_lines hlines rfl (List.forall_mem_nil _) rfl hdate hread]
  simp only [Reading.ok?_bind, Reading.ok?_pure, Line.dateValue]
  cases Date.ofText? date.text with
  | none => rfl
  | some day => cases (Line.wholeStatement k keyword.span ⟨none, ts, stop⟩).ok? <;> rfl

end Directive

/-! ## Texts -/

namespace Token

theorem readAs_keyword {name : String} {k : Keyword} (h : (name, k) ∈ Keyword.all)
    (more : List Char) : ReadAs (.keyword k) name.toList (' ' :: more) := by
  have hall : ∀ p ∈ Keyword.all, ∃ c tail, p.1.toList = c :: tail ∧ isBlank c = false ∧
      Unicode.isDecimalDigit c = false ∧ c.isUpper = false ∧ c.isLower ∧
      (∀ d ∈ tail, inSmallWord d) ∧ smallWordKind (c :: tail) = .keyword p.2 := by
    simp only [Keyword.all, List.forall_mem_cons]
    and_intros
    all_goals
      first
      | exact List.forall_mem_nil _
      | exact ⟨_, _, rfl, by decide, by decide, by decide, by decide,
          List.all_iff_forall_prop.1 (by decide), by decide⟩
  obtain ⟨c, tail, hname, hblank, hdigit, hupper, hlower, htail, hkind⟩ := hall _ h
  have hcount : countWhile inSmallWord (tail ++ ' ' :: more) = tail.length :=
    countWhile_append htail (by rintro d ⟨⟩; decide)
  refine ⟨c, tail, hname, hblank, ?_⟩
  simp only [lexeme, hdigit, hupper, hlower, Bool.false_eq_true, if_false, if_true, hcount,
    List.drop_left, List.take_left, hkind]
  rfl

/-- The ways in which a line can end. -/
def lineEnds : List String := ["", "\n", "\r\n"]

/-- The words of the end of a line. -/
def endWords (ending : String) : List Word :=
  if ending = "" then [] else [(.newline, ending.toList)]

theorem scans_lineEnd {ending : String} (h : ending ∈ lineEnds) :
    Scans false ending.toList (endWords ending) := by
  simp only [lineEnds, List.mem_cons, List.not_mem_nil, or_false] at h
  obtain rfl | rfl | rfl := h
  · exact scans_nil false
  · exact (readAs_lineFeed []).scans (scans_nil true)
  · have hreturn : ReadAs .newline ['\r', '\n'] [] := ⟨'\r', ['\n'], rfl, rfl, by decide +kernel⟩
    exact hreturn.scans (scans_nil true)

/-- A text is scanned as the same words wherever it stands. -/
theorem scans_words (fresh : Bool) (cs : List Char) :
    Scans fresh cs ((scanFrom ⟨0, 0, fresh⟩ cs).map word) := by
  intro pos hpos
  have hmoved : pos = Cursor.moved ⟨pos.offset, pos.line⟩ ⟨0, 0, fresh⟩ := by
    simp [Cursor.moved, ← hpos]
  rw [hmoved, scanFrom_moved, List.map_map]
  rfl

/-- The words up to the end of the line. -/
def lineWords (ws : List Word) : List Word := ws.takeWhile (·.1 ≠ .newline)

theorem lineWords_cons {kind : Kind} (h : kind ≠ .newline) (cs : List Char) (ws : List Word) :
    lineWords ((kind, cs) :: ws) = (kind, cs) :: lineWords ws :=
  List.takeWhile_cons_of_pos (by simpa using h)

/-- At the end of the text, or in front of a line break. -/
def AtLineEnd (cs : List Char) : Prop :=
  cs = [] ∨ ∃ rest, cs = '\n' :: rest ∨ cs = '\r' :: '\n' :: rest

theorem atLineEnd_of_mem {ending : String} (h : ending ∈ lineEnds) : AtLineEnd ending.toList := by
  simp only [lineEnds, List.mem_cons, List.not_mem_nil, or_false] at h
  obtain rfl | rfl | rfl := h
  · exact .inl rfl
  · exact .inr ⟨[], .inl rfl⟩
  · exact .inr ⟨[], .inr rfl⟩

theorem AtLineEnd.follow {cs : List Char} (h : AtLineEnd cs) : Follow ['\n', '\r'] cs := by
  obtain rfl | ⟨rest, rfl | rfl⟩ := h
  · rintro c ⟨⟩
  · rintro c ⟨⟩
    decide
  · rintro c ⟨⟩
    decide

theorem AtLineEnd.exists_scans {cs : List Char} (h : AtLineEnd cs) :
    ∃ ws, Scans false cs ws ∧ lineWords ws = [] := by
  obtain rfl | ⟨rest, rfl | rfl⟩ := h
  · exact ⟨[], scans_nil false, rfl⟩
  · exact ⟨_, (readAs_lineFeed rest).scans (scans_words true rest), rfl⟩
  · have hreturn : ReadAs .newline ['\r', '\n'] rest := ⟨'\r', ['\n'], rfl, rfl, rfl⟩
    exact ⟨_, hreturn.scans (scans_words true rest), rfl⟩

theorem isEnding_of_words {ending : String} {ts : List Token}
    (h : ts.map word = endWords ending) : Directive.IsEnding ts := by
  unfold endWords at h
  split at h
  · exact .inl (List.map_eq_nil_iff.1 h)
  · obtain ⟨t, rest, rfl, hword, hrest⟩ := List.map_eq_cons_iff.1 h
    obtain rfl := List.map_eq_nil_iff.1 hrest
    exact .inr ⟨t, rfl, congrArg Prod.fst hword⟩

end Token

/-- The text writes the day, in front of a blank: it is read as one token, which names the day. -/
structure Date.WrittenAs (d : Date) (s : String) : Prop where
  token : ∀ more, ReadAs .date s.toList (' ' :: more)
  day : Date.ofText? s = some d

/-- Days are written as they are printed. -/
theorem Date.writtenAs_text (d : Date) : d.WrittenAs d.text where
  token more := by
    rw [Date.text, String.toList_ofList]
    exact readAs_date d _
  day := ofText?_text d

/-- The text of one line consists of what its keyword says. -/
theorem Directive.ofText?_statement {day : Date} {written name rest ending : String} {k : Keyword}
    {ws : List Word} (hday : day.WrittenAs written) (hname : (name, k) ∈ Keyword.all)
    (hk : k ≠ .txn) (hws : InLine ws)
    (hrest : Scans false (rest.toList ++ ending.toList) (ws ++ endWords ending)) :
    ∃ (l : Line) (place : Span), l.words = ws ∧
      ofText? (written ++ " " ++ name ++ " " ++ rest ++ ending) =
        (l.wholeStatement k place).ok?.map fun body =>
          ⟨day, ({} : Metadata).setLine 1, body⟩ := by
  have hkeyword := readAs_keyword hname (rest.toList ++ ending.toList)
  have htext : (written ++ " " ++ name ++ " " ++ rest ++ ending).toList =
      written.toList ++ ' ' :: (name.toList ++ ' ' :: (rest.toList ++ ending.toList)) := by
    simp
  have hscans : Scans false (' ' :: (name.toList ++ ' ' :: (rest.toList ++ ending.toList)))
      ((.keyword k, name.toList) :: (ws ++ endWords ending)) :=
    (hkeyword.scans hrest.blank).blank
  have hscan :=
    ReadAs.scan_eq (hday.token (name.toList ++ ' ' :: (rest.toList ++ ending.toList))) {}
  obtain ⟨keyword, tokens, htokens, hword, hmore⟩ := List.map_eq_cons_iff.1
    (hscans (({} : Cursor).advance written.toList false) rfl)
  obtain ⟨ts, ends, rfl, hts, hends⟩ := List.map_eq_append_iff.1 hmore
  have hdate : (({} : Cursor).token .date written.toList).kind = .date := rfl
  obtain ⟨l, hl, hread⟩ := ofTokens?_statement hdate (congrArg Prod.fst hword) hk (hts ▸ hws)
    (isEnding_of_words hends)
  refine ⟨l, keyword.span, by rw [Line.words, hl, hts], ?_⟩
  rw [ofText?, scan, htext, hscan]
  simp only [reduceCtorEq, decide_false, htokens]
  rw [hread]
  simp only [Cursor.token, String.ofList_toList, hday.day, Option.bind_some]

end DoubleEntry
