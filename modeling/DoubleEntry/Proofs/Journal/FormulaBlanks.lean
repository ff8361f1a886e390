import DoubleEntry.Proofs.Journal.FormulaLayouts

/-!
# Blanks in formulas

Blanks around the operators of a formula do not matter for the directive that it is part of, with an
exception: a difference in which a digit comes directly after the minus sign is not read as one.

* `Directive.ofText?_of_words`: the transaction that a text is, told from the words of its lines.
* `DirectiveForm`: transactions, assertions and prices with formulas in place of their numbers.
* `DirectiveForm.ofText?_text`: the directive that their text is.
* `DirectiveForm.Stops`: in an amount or a price there is such a difference.
* `DirectiveForm.ofText?_tight`: without blanks the directive is the same unless there is such a
  difference, and in an amount or a price there is no directive then.
-/

namespace DoubleEntry

open Token

/-! ## Directives -/

/-- Lists whose members come to the same come to the same. -/
theorem mapM_congr_of_forall₂ {α β γ : Type} {R : α → β → Prop} {f : α → Option γ}
    {g : β → Option γ} {as : List α} {bs : List β} (h : List.Forall₂ R as bs)
    (hfg : ∀ a, ∀ b ∈ bs, R a b → f a = g b) : as.mapM f = bs.mapM g := by
  induction h with
  | nil => rfl
  | cons hab _ ih =>
    rw [List.mapM_cons, List.mapM_cons, hfg _ _ List.mem_cons_self hab,
      ih fun a b hb => hfg a b (List.mem_cons_of_mem _ hb)]

theorem mapM_congr {α β : Type} {f g : α → Option β} {as : List α} (h : ∀ a ∈ as, f a = g a) :
    as.mapM f = as.mapM g :=
  mapM_congr_of_forall₂ (R := Eq) (List.forall₂_refl as) fun _ b hb hsame => hsame ▸ h b hb

/-- If one of the members comes to nothing, then so does the list. -/
theorem mapM_eq_none_of_mem {α β : Type} {f : α → Option β} {a : α} {as : List α} (ha : a ∈ as)
    (h : f a = none) : as.mapM f = none := by
  induction as with
  | nil => cases ha
  | cons b as ih =>
    rw [List.mapM_cons]
    obtain rfl | ha := List.mem_cons.1 ha
    · rw [h]
      rfl
    · rw [ih ha]
      exact Option.bind_fun_none _

/-- A part of what the members come to can be left out before or after. -/
theorem map_mapM {α β γ : Type} (f : α → Option β) (g : β → γ) (as : List α) :
    (as.mapM f).map (List.map g) = as.mapM fun a => (f a).map g := by
  induction as with
  | nil => rfl
  | cons a as ih =>
    rw [List.mapM_cons, List.mapM_cons, ← ih]
    cases f a with
    | none => rfl
    | some b => cases as.mapM f <;> rfl

/-- A text is one transaction if its lines have the words of the transaction and of its postings,
whatever blanks there are. -/
theorem Directive.ofText?_of_words {text : String} {head : Transaction}
    {postings : List PostingForm} {day : Date} (hwritten : head.IsWritten)
    (hprintable : head.Printable) (hnone : head.postings = [])
    (hfits : ∀ p ∈ postings, ∀ q ∈ p.quantities, q.Fits)
    (hlines : (Line.ofTokens (scan text)).map (fun l => (l.indent.isSome, l.number, l.words)) =
      (false, 1, head.words day) ::
        (postings.zipIdx 2).map fun p : PostingForm × Nat => (true, p.2, p.1.words)) :
    Directive.ofText? text =
      ((postings.zipIdx 2).mapM fun p : PostingForm × Nat => p.1.result? p.2).map fun ps =>
        ⟨day, ({} : Metadata).setLine 1, .transaction { head with postings := ps }⟩ := by
  obtain ⟨l, body, hlines, hl, hbody⟩ := List.map_eq_cons_iff.1 hlines
  simp only [Prod.mk.injEq, Option.isSome_eq_false_iff, Option.isNone_iff_eq_none] at hl
  obtain ⟨hindent, hnumber, hwords⟩ := hl
  rw [← List.forall₂_eq_eq_eq, List.forall₂_map_left_iff, List.forall₂_map_right_iff] at hbody
  simp only [Prod.mk.injEq] at hbody
  have hall : List.Forall₂ (fun (l : Line) (p : PostingForm × Nat) =>
      (l.indent.isSome ∧ l.nextKind? = some .account) ∧
        l.number = p.2 ∧ l.words = p.1.words) body (postings.zipIdx 2) := by
    refine hbody.imp fun l p hp => ⟨⟨hp.1, ?_⟩, hp.2⟩
    rw [Line.nextKind?_of_words, hp.2.2, PostingForm.words, PostingForm.wordsOf, List.head?_cons,
      Option.map_some]
  obtain ⟨hbody, hpostings⟩ := (List.forall₂_and_left _ _).1 hall
  rw [Directive.ofText?, Directive.ofTokens?_transaction hwritten hprintable hnone hlines hindent
    hwords hbody, hnumber, mapM_congr_of_forall₂ hpostings fun l p hp hl =>
      (Line.ok?_posting_of_words (hfits p.1 (List.fst_mem_of_mem_zipIdx hp)) hl.2).trans
        (congrArg p.1.result? hl.1)]

/-- The directive without the signs of zeros in its amounts. -/
def Directive.readBack (d : Directive) : Directive :=
  { d with
    body :=
      match d.body with
      | .transaction t =>
        .transaction { t with postings := t.postings.map fun p => p.readBack p.metadata }
      | .balance b => .balance { b with amount := b.amount.readBack }
      | .price c a => .price c a.readBack
      | body => body }

/-- A directive with formulas in place of the numbers in it: a transaction with some postings, an
assertion or a price. -/
inductive DirectiveForm where
  | transaction (head : Transaction) (postings : List PostingForm)
  | balance (account : Account) (q : Quantity)
  | price (currency : Currency) (q : Quantity)

namespace DirectiveForm

/-- All quantities of the directive. -/
def quantities : DirectiveForm → List Quantity
  | transaction _ postings => postings.flatMap PostingForm.quantities
  | balance _ q | price _ q => [q]

/-- The names and the quantities of the directive are written, and the first line of a transaction
is that of a transaction without postings. -/
def IsWritten : DirectiveForm → Prop
  | transaction head postings =>
    (head.IsWritten ∧ head.Printable ∧ head.postings = []) ∧ ∀ p ∈ postings, p.IsWritten
  | balance account q => IsAccount account.toList ∧ q.IsWritten
  | price currency q => IsCurrency currency.toList ∧ q.IsWritten

/-- The lines of the directive. -/
def text (layout : Layout) (day : Date) : DirectiveForm → String
  | transaction head postings =>
    head.text day ++ String.join (postings.map fun p => "\n" ++ p.text layout) ++ "\n"
  | balance account q => day.text ++ " balance " ++ account ++ " " ++ q.text layout ++ "\n"
  | price currency q => day.text ++ " price " ++ currency ++ " " ++ q.text layout ++ "\n"

/-- The line of the first posting. -/
def postingsLine (head : Transaction) (day : Date) : Nat := 1 + newlines (head.words day) + 1

/-- What the directive comes to, given what amounts and costs come to. -/
def resultOf (amount cost : Quantity → Option Amount) (day : Date) :
    DirectiveForm → Option Directive
  | transaction head postings =>
    ((postings.zipIdx (postingsLine head day)).mapM fun p : PostingForm × Nat =>
      p.1.resultOf amount cost p.2).map fun ps =>
        ⟨day, ({} : Metadata).setLine 1, .transaction { head with postings := ps }⟩
  | balance account q =>
    (amount q).map fun a => ⟨day, ({} : Metadata).setLine 1, .balance ⟨account, a, none⟩⟩
  | price currency q =>
    (amount q).map fun a => ⟨day, ({} : Metadata).setLine 1, .price currency a⟩

/-- What the directive comes to. -/
def resultIn (layout : Layout) (day : Date) (form : DirectiveForm) : Option Directive :=
  form.resultOf (Quantity.resultIn layout) (Quantity.costIn layout) day

/-- An amount or a price of the directive falls apart. -/
def Stops : DirectiveForm → Prop
  | transaction _ postings => ∃ p ∈ postings, p.Stops
  | balance _ q | price _ q => q.formula.Joins

variable {form : DirectiveForm} {layout : Layout} {day : Date}
  {amount cost amount' cost' : Quantity → Option Amount}

theorem IsWritten.quantities (h : form.IsWritten) : ∀ q ∈ form.quantities, q.IsWritten := by
  cases form with
  | transaction head postings =>
    intro q hq
    obtain ⟨p, hp, hq⟩ := List.mem_flatMap.1 hq
    exact (h.2 p hp).quantities q hq
  | balance account q => exact List.forall_mem_singleton.2 h.2
  | price currency q => exact List.forall_mem_singleton.2 h.2

theorem resultOf_congr (h : ∀ q ∈ form.quantities, amount q = amount' q ∧ cost q = cost' q) :
    form.resultOf amount cost day = form.resultOf amount' cost' day := by
  cases form with
  | transaction head postings =>
    have hposting : ∀ p ∈ postings.zipIdx (postingsLine head day),
        p.1.resultOf amount cost p.2 = p.1.resultOf amount' cost' p.2 := fun p hp =>
      PostingForm.resultOf_congr (fun q hq => h q (List.mem_flatMap.2
        ⟨p.1, List.fst_mem_of_mem_zipIdx hp, hq⟩)) p.2
    rw [resultOf, resultOf, mapM_congr hposting]
  | balance account q => rw [resultOf, resultOf, (h q List.mem_cons_self).1]
  | price currency q => rw [resultOf, resultOf, (h q List.mem_cons_self).1]

/-- The signs of zeros can be left out before or after. -/
theorem map_readBack_resultOf (amount cost : Quantity → Option Amount) (form : DirectiveForm)
    (day : Date) : (form.resultOf amount cost day).map Directive.readBack =
      form.resultOf (fun q => (amount q).map Amount.readBack)
        (fun q => (cost q).map Amount.readBack) day := by
  cases form with
  | transaction head postings =>
    simp only [resultOf, ← PostingForm.map_readBack_resultOf, ← map_mapM, Option.map_map]
    rfl
  | balance account q =>
    simp only [resultOf, Option.map_map]
    rfl
  | price currency q =>
    simp only [resultOf, Option.map_map]
    rfl

theorem resultIn_of_stops (h : form.Stops) : form.resultIn .tight day = none := by
  cases form with
  | transaction head postings =>
    obtain ⟨p, hp, hstops⟩ := h
    rw [← List.zipIdx_map_fst (postingsLine head day) postings] at hp
    obtain ⟨p, hmem, rfl⟩ := List.mem_map.1 hp
    rw [resultIn, resultOf, mapM_eq_none_of_mem hmem (PostingForm.resultIn_of_stops hstops p.2)]
    rfl
  | balance account q =>
    rw [resultIn, resultOf, Quantity.resultIn_of_joins h]
    rfl
  | price currency q =>
    rw [resultIn, resultOf, Quantity.resultIn_of_joins h]
    rfl

/-! ## Reading the lines -/

theorem scans_postings {postings : List PostingForm} (h : ∀ p ∈ postings, p.IsWritten)
    (layout : Layout) :
    Scans false ((postings.flatMap fun p => '\n' :: (p.text layout).toList) ++ ['\n'])
        (((postings.map (PostingForm.wordsIn layout)).flatMap fun ws =>
          (.newline, ['\n']) :: (.indent, [' ', ' ']) :: ws) ++ [(.newline, ['\n'])]) ∧
      Follow ['\n'] ((postings.flatMap fun p => '\n' :: (p.text layout).toList) ++ ['\n']) := by
  rw [List.flatMap_map]
  refine scans_lines (fun p hp _ _ hmore hfollow => p.scans_text (h p hp) layout hfollow hmore)
    ((readAs_lineFeed []).scans (scans_nil true)) ?_
  rintro c ⟨⟩
  decide

/-- The text of a transaction is what is read of the lines of its postings. -/
theorem exists_lines {head : Transaction} {postings : List PostingForm}
    (h : (transaction head postings).IsWritten) (layout : Layout) (day : Date) :
    ∃ lines : List Line,
      List.Forall₂ (fun l p => l.words = PostingForm.wordsIn layout p.1 ∧ l.number = p.2) lines
        (postings.zipIdx (postingsLine head day)) ∧
      Directive.ofText? ((transaction head postings).text layout day) =
        (lines.mapM fun l : Line => l.posting.ok?).map fun ps =>
          ⟨day, ({} : Metadata).setLine 1, .transaction { head with postings := ps }⟩ := by
  obtain ⟨⟨hhead, hprintable, hnone⟩, hpostings⟩ := h
  obtain ⟨hmore, hfollow⟩ := scans_postings hpostings layout
  have htext : ((transaction head postings).text layout day).toList =
      (head.text day).toList ++
        ((postings.flatMap fun p => '\n' :: (p.text layout).toList) ++ ['\n']) := by
    simp [text, List.flatMap_map]
  -- The first line is that of a transaction without postings.
  have hscans := Transaction.scans_text_append hhead hprintable day hmore hfollow {} rfl
  rw [← htext, ← scan] at hscans
  have hnumbers : Line.NumberedFrom 1 (scan ((transaction head postings).text layout day)) :=
    map_line_scanFrom {} _
  have hfirst : head.words day ≠ [] ∧ InLine (head.words day) := by
    rw [Transaction.words, hnone]
    refine ⟨List.cons_ne_nil _ _, ?_⟩
    rw [List.flatMap_nil, List.append_nil]
    exact .cons (by decide) (.cons (flagKind_ne head.flag) head.inLine_headWords)
  have hothers : ∀ ws ∈ postings.map (PostingForm.wordsIn layout),
      ws ≠ [] ∧ InLine ws ∧ newlines ws = 0 := by
    refine List.forall_mem_map.2 fun p hp => ⟨List.cons_ne_nil _ _, fun w hw => ?_,
      newlines_eq_zero ((hpostings p hp).inOneLine layout)⟩
    obtain ⟨hnewline, hindent, -⟩ := (hpostings p hp).inOneLine layout w hw
    exact ⟨hnewline, hindent⟩
  obtain ⟨l, lines, hlines, hl, hwords, hnumber, hall⟩ :=
    Line.ofTokens_numbered hfirst hothers hscans hnumbers
  rw [List.zipIdx_map, List.forall₂_map_right_iff] at hall
  have hall : List.Forall₂ (fun (l : Line) (p : PostingForm × Nat) =>
      (l.indent.isSome ∧ l.nextKind? = some .account) ∧
        l.words = p.1.wordsIn layout ∧ l.number = p.2) lines
      (postings.zipIdx (postingsLine head day)) := by
    refine hall.imp fun l p hp => ?_
    obtain ⟨hindented, hp, hn⟩ := hp
    have hp : l.words = p.1.wordsIn layout := hp
    refine ⟨⟨hindented, ?_⟩, hp, hn⟩
    rw [Line.nextKind?_of_words, hp, PostingForm.wordsIn, PostingForm.wordsOf, List.head?_cons,
      Option.map_some]
  obtain ⟨hbody, hwordsIn⟩ := (List.forall₂_and_left _ _).1 hall
  refine ⟨lines, hwordsIn, ?_⟩
  rw [Directive.ofText?, Directive.ofTokens?_transaction hhead hprintable hnone hlines hl hwords
    hbody, hnumber]

/-- The text of another directive is what its keyword says about its words. -/
theorem exists_statement {name subject : String} {k : Keyword} {kind : Token.Kind} {q : Quantity}
    (hname : (name, k) ∈ Keyword.all) (hk : k ≠ .txn)
    (hsubject : ∀ more, ReadAs kind subject.toList (' ' :: more))
    (hkind : kind ≠ .newline ∧ kind ≠ .indent) (hq : q.IsWritten) (layout : Layout) (day : Date) :
    ∃ (l : Line) (place : Span), l.words = (kind, subject.toList) :: q.wordsIn layout ∧
      Directive.ofText?
          (day.text ++ " " ++ name ++ " " ++ (subject ++ " " ++ q.text layout) ++ "\n") =
        (l.wholeStatement k place).ok?.map fun body => ⟨day, ({} : Metadata).setLine 1, body⟩ := by
  have hending : "\n" ∈ lineEnds := by decide
  have hfollow : Follow [' ', '\n', '\x7d'] "\n".toList := by
    rintro c ⟨⟩
    decide
  have hquantity := hq.scans_text layout hfollow (scans_lineEnd hending)
  have hall := (hsubject _).scans (b := false) (by simpa [hkind.1] using hquantity.blank)
  have hline : InLine ((kind, subject.toList) :: q.wordsIn layout) :=
    .cons hkind fun w hw => ⟨(hq.inOneLine layout w hw).1, (hq.inOneLine layout w hw).2.1⟩
  exact Directive.ofText?_statement (Date.writtenAs_text day) hname hk hline (by simpa using hall)

theorem exists_balance {account : Account} {q : Quantity} (h : (balance account q).IsWritten)
    (layout : Layout) (day : Date) :
    ∃ (l : Line) (place : Span), l.words = (.account, account.toList) :: q.wordsIn layout ∧
      Directive.ofText? ((balance account q).text layout day) =
        (l.wholeStatement .balance place).ok?.map fun body =>
          ⟨day, ({} : Metadata).setLine 1, body⟩ := by
  have htext : (balance account q).text layout day =
      day.text ++ " " ++ "balance" ++ " " ++ (account ++ " " ++ q.text layout) ++ "\n" := by
    simp [text, String.append_assoc]
  rw [htext]
  exact exists_statement (by decide) (by decide)
    (fun more => readAs_account h.1 (follow_blank more (by decide))) (by decide) h.2 layout day

theorem exists_price {currency : Currency} {q : Quantity} (h : (price currency q).IsWritten)
    (layout : Layout) (day : Date) :
    ∃ (l : Line) (place : Span), l.words = (.currency, currency.toList) :: q.wordsIn layout ∧
      Directive.ofText? ((price currency q).text layout day) =
        (l.wholeStatement .price place).ok?.map fun body =>
          ⟨day, ({} : Metadata).setLine 1, body⟩ := by
  have htext : (price currency q).text layout day =
      day.text ++ " " ++ "price" ++ " " ++ (currency ++ " " ++ q.text layout) ++ "\n" := by
    simp [text, String.append_assoc]
  rw [htext]
  exact exists_statement (by decide) (by decide)
    (fun more => readAs_currency h.1 (follow_blank more (by decide))) (by decide) h.2 layout day

/-- The text of a directive comes to what its layout says. -/
theorem ofText?_text (h : form.IsWritten) (layout : Layout) (day : Date) :
    Directive.ofText? (form.text layout day) = form.resultIn layout day := by
  have hfits : ∀ q ∈ form.quantities, q.Fits := fun q hq => (h.quantities q hq).fits
  cases form with
  | transaction head postings =>
    obtain ⟨lines, hlines, hread⟩ := exists_lines h layout day
    have hpostings := mapM_congr_of_forall₂ hlines fun l p hp hl =>
      (PostingForm.ok?_posting_of_wordsIn (fun q hq => hfits q (List.mem_flatMap.2
        ⟨p.1, List.fst_mem_of_mem_zipIdx hp, hq⟩)) hl.1).trans (congrArg _ hl.2)
    rw [hread, hpostings]
    rfl
  | balance account q =>
    obtain ⟨l, place, hl, hread⟩ := exists_balance h layout day
    rw [hread, Line.ok?_balance_of_wordsIn (hfits q List.mem_cons_self) hl, Option.map_map]
    rfl
  | price currency q =>
    obtain ⟨l, place, hl, hread⟩ := exists_price h layout day
    rw [hread, Line.ok?_price_of_wordsIn (hfits q List.mem_cons_self) hl, Option.map_map]
    rfl

/-! ## What blanks change -/

/-- With or without blanks a text comes to what its layout says. Without blanks it is the same
directive, but for the signs of zeros, unless in a difference the minus sign is followed by a number
without a sign; an amount or a price with such a difference is not read, and of a cost the last
number is kept. -/
theorem ofText?_tight (h : form.IsWritten) (day : Date) :
    (∀ layout, Directive.ofText? (form.text layout day) = form.resultIn layout day) ∧
    ((∀ q ∈ form.quantities, ¬q.formula.Joins) →
      (Directive.ofText? (form.text .tight day)).map Directive.readBack =
        (Directive.ofText? (form.text .spaced day)).map Directive.readBack ∧
      ((∀ q ∈ form.quantities, q.formula.join = q.formula) →
        Directive.ofText? (form.text .tight day) = Directive.ofText? (form.text .spaced day))) ∧
    (form.Stops → Directive.ofText? (form.text .tight day) = none) := by
  refine ⟨fun layout => ofText?_text h layout day, fun hjoins => ?_, fun hstops => ?_⟩
  · rw [ofText?_text h, ofText?_text h, resultIn, resultIn]
    constructor
    · rw [map_readBack_resultOf, map_readBack_resultOf]
      refine resultOf_congr fun q hq => ?_
      have hread := Quantity.map_readBack_resultIn (h.quantities q hq).fits (hjoins q hq)
      exact ⟨hread, (congrArg _ (Quantity.costIn_of_not_joins (hjoins q hq))).trans hread⟩
    · intro hsame
      refine resultOf_congr fun q hq => ?_
      have hread := Quantity.resultIn_eq_of_join_eq (hjoins q hq) (hsame q hq)
      exact ⟨hread, (Quantity.costIn_of_not_joins (hjoins q hq)).trans hread⟩
  · rw [ofText?_text h, resultIn_of_stops hstops]

/-- Ten dollars less something. -/
def tenLess (less : Formula Word) : Quantity :=
  ⟨.binary (.number (.number, ['1', '0'])) (.minus, ['-']) less, "USD"⟩

theorem isSymbol_digit {c : Char} (h : c.isDigit) : IsSymbol (.number, [c]) :=
  .inl ⟨rfl, [c], .inl rfl, List.forall_mem_singleton.2 h, List.cons_ne_nil _ _,
    Nat.le_add_left 1 2⟩

theorem isWritten_tenLess {less : Formula Word} (hless : less.Fits Prod.fst .product)
    (hsymbols : ∀ w ∈ less.symbols, IsSymbol w) : (tenLess less).IsWritten := by
  have hten : IsSymbol (.number, ['1', '0']) :=
    .inl ⟨rfl, ['1', '0'], .inl rfl, List.all_iff_forall_prop.1 (by decide), by decide, by decide⟩
  refine ⟨.sum (.ofProduct (.ofFactor (.number rfl))) (.inr rfl) hless, ?_, isCurrency_usd⟩
  exact List.forall_mem_cons.2 ⟨hten, List.forall_mem_cons.2 ⟨.inr (by decide), hsymbols⟩⟩

/-- Two times three, in parentheses. -/
def twoTimesThree : Formula Word :=
  .group (.leftParen, ['(']) (.binary (.number (.number, ['2'])) (.star, ['*'])
    (.number (.number, ['3']))) (.rightParen, [')'])

theorem ofText?_tight_product :
    (balance "Assets:Cash" (tenLess twoTimesThree)).IsWritten ∧
    Directive.ofText? "2024-01-01 balance Assets:Cash 10-(2*3) USD\n" =
      some ⟨.afterNewYear 0, ({} : Metadata).setLine 1,
        .balance ⟨"Assets:Cash", ⟨.written "4", "USD"⟩, none⟩⟩ := by
  have hwritten : (tenLess twoTimesThree).IsWritten := by
    refine isWritten_tenLess (.ofFactor (.group rfl (.ofProduct (.product
      (.ofFactor (.number rfl)) (.inl rfl) (.number rfl))) rfl)) ?_
    simp only [twoTimesThree, Formula.symbols, List.cons_append, List.nil_append,
      List.forall_mem_cons]
    exact ⟨.inr (by decide), isSymbol_digit rfl, .inr (by decide), isSymbol_digit rfl,
      .inr (by decide), List.forall_mem_nil _⟩
  have hform : (balance "Assets:Cash" (tenLess twoTimesThree)).IsWritten :=
    ⟨isAccount_cash, hwritten⟩
  have htext : (balance "Assets:Cash" (tenLess twoTimesThree)).text .tight (.afterNewYear 0) =
      "2024-01-01 balance Assets:Cash 10-(2*3) USD\n" := by decide +kernel
  obtain ⟨hread, hsame, -⟩ := ofText?_tight hform (.afterNewYear 0)
  have htight := (hsame (List.forall_mem_singleton.2 (by decide))).2
    (List.forall_mem_singleton.2 rfl)
  rw [htext, hread] at htight
  exact ⟨hform, htight.trans (by decide +kernel)⟩

/-- Shares at a cost of ten less two. -/
def sharesAtDifference : DirectiveForm :=
  .transaction { flag := Flag.okay, narration := "Shares" }
    [{ account := "Assets:Cash"
       units := some ⟨.number (.number, ['3']), "CORP"⟩
       cost := some (false, tenLess (.number (.number, ['2']))) }]

theorem isWritten_sharesAtDifference : sharesAtDifference.IsWritten := by
  have hunits : (⟨.number (.number, ['3']), "CORP"⟩ : Quantity).IsWritten :=
    ⟨.ofProduct (.ofFactor (.number rfl)), List.forall_mem_singleton.2 (isSymbol_digit rfl),
      isCurrency_corp⟩
  have hcost := isWritten_tenLess (.ofFactor (.number rfl))
    (List.forall_mem_singleton.2 (isSymbol_digit (c := '2') rfl))
  have hnames : AreNames [] := ⟨by decide, List.forall_mem_nil _⟩
  refine ⟨⟨⟨by decide, hnames, hnames, List.forall_mem_nil _⟩, ⟨by rintro s ⟨⟩, ?_, ?_⟩, rfl⟩,
    List.forall_mem_singleton.2 ⟨isAccount_cash, ?_⟩⟩
  · exact List.all_iff_forall_prop.1 (by decide)
  · exact List.forall_mem_nil _
  · exact List.forall_mem_cons.2 ⟨hunits, List.forall_mem_singleton.2 hcost⟩

/-- Ten less two is eight; without blanks no assertion is read, and a cost is minus two. -/
theorem ofText?_tight_difference :
    Directive.ofText? "2024-01-01 balance Assets:Cash 10 - 2 USD\n" =
      some ⟨.afterNewYear 0, ({} : Metadata).setLine 1,
        .balance ⟨"Assets:Cash", ⟨.written "8", "USD"⟩, none⟩⟩ ∧
    Directive.ofText? "2024-01-01 balance Assets:Cash 10-2 USD\n" = none ∧
    Directive.ofText? "2024-01-01 * \"Shares\"\n  Assets:Cash 3 CORP \x7b10-2 USD\x7d\n" =
      some ⟨.afterNewYear 0, ({} : Metadata).setLine 1, .transaction
        { flag := Flag.okay, narration := "Shares"
          postings := [
            { account := "Assets:Cash"
              units := some (.complete ⟨.written "3", "CORP"⟩)
              cost := some { perUnit := some (.written "-2"), currency := some "USD" }
              metadata := ({} : Metadata).setLine 2 }] }⟩ := by
  have hbalance : (balance "Assets:Cash" (tenLess (.number (.number, ['2'])))).IsWritten :=
    ⟨isAccount_cash, isWritten_tenLess (.ofFactor (.number rfl))
      (List.forall_mem_singleton.2 (isSymbol_digit rfl))⟩
  have hspaced : (balance "Assets:Cash" (tenLess (.number (.number, ['2'])))).text .spaced
      (.afterNewYear 0) = "2024-01-01 balance Assets:Cash 10 - 2 USD\n" := by decide +kernel
  have htight : (balance "Assets:Cash" (tenLess (.number (.number, ['2'])))).text .tight
      (.afterNewYear 0) = "2024-01-01 balance Assets:Cash 10-2 USD\n" := by decide +kernel
  have hcost : sharesAtDifference.text .tight (.afterNewYear 0) =
      "2024-01-01 * \"Shares\"\n  Assets:Cash 3 CORP \x7b10-2 USD\x7d\n" := by decide +kernel
  rw [← hspaced, ← htight, ← hcost, ofText?_text hbalance, ofText?_text hbalance,
    ofText?_text isWritten_sharesAtDifference]
  exact ⟨by decide +kernel, by decide +kernel, by decide +kernel⟩

end DirectiveForm

end DoubleEntry
