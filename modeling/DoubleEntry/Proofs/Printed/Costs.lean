import DoubleEntry.Proofs.Printed.Transactions

/-!
# Printed costs

The text of a cost shows at most one number, the cost per unit before the total, and none without a
currency. So a cost that was read is read back from its text with all that is shown of it, which is
all of it unless a number is left out.

* `Cost.shown`: what the text of a cost shows. `Cost.text_shown`: it has the same text.
* `Cost.same_iff`: whether that is all of the cost.
* `Cost.postingText`: a cost on the line of a posting. `Cost.exists_isReadFrom`: what it is read as.
* `Cost.reads_text_iff`: which costs that were read are read back as the same.
-/

namespace DoubleEntry

open Token

namespace Cost

variable {cost cost' : Cost}

/-- What the text of a cost shows: of a number per unit and a total only the first, and no number
without a currency. -/
def shown (cost : Cost) : Cost :=
  match cost.currency, cost.perUnit with
  | none, _ => { cost with perUnit := none, total := none }
  | some _, some _ => { cost with total := none }
  | some _, none => cost

theorem text_shown (cost : Cost) : cost.shown.text = cost.text := by
  obtain ⟨perUnit, total, currency, date, label⟩ := cost
  cases currency <;> cases perUnit <;> cases total <;> rfl

theorem currency_shown (cost : Cost) : cost.shown.currency = cost.currency := by
  unfold shown
  split <;> simp_all

theorem printable_shown (h : ∀ label ∈ cost.label, Plain label.toList) : cost.shown.Printable := by
  obtain ⟨perUnit, total, currency, date, label⟩ := cost
  refine ⟨?_, ?_⟩
  · cases currency <;> cases perUnit <;> exact h
  · cases currency <;> cases perUnit <;> cases total <;> simp [shown]

/-- What is shown of a cost is all of it if there is at most one number, and that with a
currency. -/
theorem same_iff (h : cost'.Same cost.shown) :
    cost'.Same cost ↔ cost.perUnit = none ∧ cost.total = none ∨
      cost.currency.isSome ∧ cost.perUnit.isSome ≠ cost.total.isSome := by
  constructor
  · intro hsame
    have hperUnit : cost.shown.perUnit.isSome = cost.perUnit.isSome :=
      (isSome_of_rel h.perUnit).symm.trans (isSome_of_rel hsame.perUnit)
    have htotal : cost.shown.total.isSome = cost.total.isSome :=
      (isSome_of_rel h.total).symm.trans (isSome_of_rel hsame.total)
    obtain ⟨perUnit, total, currency, date, label⟩ := cost
    cases currency <;> cases perUnit <;> cases total <;> simp_all [shown]
  · intro hnumber
    have hshown : cost.shown = cost := by
      obtain ⟨perUnit, total, currency, date, label⟩ := cost
      cases currency <;> cases perUnit <;> cases total <;> simp_all [shown]
    rwa [hshown] at h

/-! ## On the line of a posting -/

/-- A transaction with one posting: an account, units and the cost. -/
def posted (cost : Cost) (account : Account) (units : Units) : Transaction where
  postings := [{ account, units := some units, cost := some cost }]

/-- The cost after an account and units on the line of a posting. -/
def postingText (cost : Cost) (date : Date) (account : Account) (units : Units) : String :=
  date.text ++ " * \"\"\n  " ++ account ++ "  " ++ units.text ++ " " ++ cost.text

theorem text_posted (cost : Cost) (date : Date) (account : Account) (units : Units) :
    (cost.posted account units).text date = cost.postingText date account units := by
  refine String.toList_inj.1 ?_
  rw [Transaction.toList_text, postingText]
  simp [posted, Posting.toList_text, Date.text, quoted, Flag.okay]

/-- The text is read as one transaction, with one posting of the account, the units and the cost. -/
def IsReadFrom (cost : Cost) (text : String) (account : Account) (units : Units) : Prop :=
  ∃ d t p, Journal.ofText text = .exact ⟨[.directive d]⟩ ∧ d.value.body = .transaction t ∧
    t.postings = [p] ∧ p.account = account ∧ Option.Rel Units.Same p.units (some units) ∧
    p.cost = some cost ∧ p.price = none

theorem IsReadFrom.unique {text : String} {account : Account} {units : Units}
    (h : cost.IsReadFrom text account units) (h' : cost'.IsReadFrom text account units) :
    cost = cost' := by
  obtain ⟨d, t, p, hread, hbody, hpostings, -, -, hcost, -⟩ := h
  obtain ⟨d', t', p', hread', hbody', hpostings', -, -, hcost', -⟩ := h'
  obtain rfl : d = d' := by
    rw [hread] at hread'
    cases hread'
    rfl
  obtain rfl := Directive.Body.transaction.inj (hbody.symm.trans hbody')
  obtain rfl := List.head_eq_of_cons_eq (hpostings.symm.trans hpostings')
  exact Option.some.inj (hcost.symm.trans hcost')

section Line

variable {account : Account} {units : Units}

theorem isWritten_posted (haccount : IsAccount account.toList)
    (hunits : ∀ c ∈ units.currency?, IsCurrency c.toList)
    (hcurrency : ∀ c ∈ cost.currency, IsCurrency c.toList) :
    (cost.posted account units).IsWritten := by
  have hflag : Flag.okay ∈ flagSigns := by decide
  refine ⟨hflag, ⟨.nil, by simp [posted]⟩, ⟨.nil, by simp [posted]⟩, ?_⟩
  refine List.forall_mem_singleton.2 ⟨by simp, haccount, ?_, ?_, by simp⟩
  · rintro u ⟨⟩
    exact hunits
  · rintro c ⟨⟩
    exact hcurrency

theorem printable_posted (h : cost.Printable) : (cost.posted account units).Printable := by
  refine ⟨by simp [posted], by simp [posted, Plain], ?_⟩
  refine List.forall_mem_singleton.2 ?_
  rintro c ⟨⟩
  exact h

/-- A transaction that says the same has one posting, with such a cost. -/
theorem exists_of_same_posted {t : Transaction} (h : t.Same (cost.posted account units)) :
    ∃ (p : Posting) (cost' : Cost), t.postings = [p] ∧ p.account = account ∧
      Option.Rel Units.Same p.units (some units) ∧ p.cost = some cost' ∧ p.price = none ∧
      cost'.Same cost := by
  obtain ⟨p, ps, hp, hps, heq⟩ := List.forall₂_cons_right_iff.1 h.postings
  obtain rfl := List.forall₂_nil_right_iff.1 hps
  obtain ⟨cost', hcost, hsame⟩ := exists_of_rel_some hp.cost
  have hprice : p.price = none := by
    have hnot := isSome_of_rel hp.price
    simpa using hnot
  exact ⟨p, cost', heq, hp.account, hp.units, hcost, hprice, hsame⟩

/-- On the line of a posting, the text of a cost is read as what it shows. -/
theorem exists_isReadFrom (haccount : IsAccount account.toList)
    (hunits : ∀ c ∈ units.currency?, IsCurrency c.toList)
    (hcurrency : ∀ c ∈ cost.currency, IsCurrency c.toList)
    (hlabel : ∀ label ∈ cost.label, Plain label.toList) (date : Date) :
    ∃ cost' : Cost, cost'.IsReadFrom (cost.postingText date account units) account units ∧
      cost'.Same cost.shown := by
  have hwritten : (cost.shown.posted account units).IsWritten :=
    isWritten_posted haccount hunits (by rwa [currency_shown])
  have hprintable : (cost.shown.posted account units).Printable :=
    printable_posted (printable_shown hlabel)
  have hscan : (scan ((cost.shown.posted account units).text date)).map Token.word =
      (cost.shown.posted account units).words date :=
    Transaction.scans_text hwritten hprintable date {} rfl
  obtain ⟨d, hread, -, t, hbody, hsame⟩ := Journal.ofTokens_of_words hwritten hprintable hscan
  obtain ⟨p, cost', hpostings, haccount', hunits', hcost, hprice, hshown⟩ :=
    exists_of_same_posted hsame
  have htext : (cost.shown.posted account units).text date =
      cost.postingText date account units := by
    rw [text_posted, postingText, text_shown, postingText]
  rw [← htext]
  exact ⟨cost', ⟨d, t, p, hread, hbody, hpostings, haccount', hunits', hcost, hprice⟩, hshown⟩

end Line

variable {text : String} {l l' rest : Line}

/-- A cost that was read from a line of a text, without quotes and backslashes in its label, is
read back from its own text on the line of a posting, as far as it is shown there. That is the same
cost exactly if it has at most one number, and that with a currency. -/
theorem reads_text_iff (hl : l ∈ Line.ofTokens (scan text)) (hl' : l'.Within l)
    (hcost : l'.cost?.run.value? = some (.ok (some cost, rest)))
    (hlabel : ∀ label ∈ cost.label, Plain label.toList) {account : Account} {units : Units}
    (haccount : IsAccount account.toList) (hunits : ∀ c ∈ units.currency?, IsCurrency c.toList)
    (date : Date) :
    ∃ cost' : Cost, cost'.IsReadFrom (cost.postingText date account units) account units ∧
      cost'.Same cost.shown ∧
      (cost'.Same cost ↔ cost.perUnit = none ∧ cost.total = none ∨
        cost.currency.isSome ∧ cost.perUnit.isSome ≠ cost.total.isSome) := by
  have hwritten : l'.IsWritten := fun t ht => isWritten_of_mem_scan
    ((Line.of_mem_ofTokens hl).mem t (List.mem_append_right _ (Line.mem_of_within hl' ht)))
  have hcurrency : ∀ c ∈ cost.currency, IsCurrency c.toList :=
    ((Line.cost?_finds hwritten).of_value? hcost).1 cost rfl
  obtain ⟨cost', hread, hshown⟩ :=
    exists_isReadFrom haccount hunits hcurrency hlabel date
  exact ⟨cost', hread, hshown, same_iff hshown⟩

/-- The cost of the lot that is purchased. -/
def ofLot : Cost where
  total := some (.written "250.0")
  currency := some "USD"
  label := some "lot"

/-- What follows some words of a line. -/
theorem exists_rest {ws : List Word} {i n : Nat}
    (h : (Line.ofTokens (scan text))[i]?.any fun l =>
      (l.tokens.take n).all (·.kind ≠ .error) ∧ (l.tokens.drop n).map Token.word = ws) :
    ∃ l ∈ Line.ofTokens (scan text), ∃ l' : Line, l'.Within l ∧ l'.words = ws := by
  obtain ⟨l, hl, hany⟩ := (Option.any_eq_true _ _).1 h
  obtain ⟨hgood, hws⟩ := of_decide_eq_true hany
  refine ⟨l, List.mem_of_getElem? hl, l.withTokens (l.tokens.drop n), l.within_drop ?_, hws⟩
  simpa using hgood

theorem reads_text_iff_ofLot :
    ∃ l ∈ Line.ofTokens (scan lotPurchaseText), ∃ (l' rest : Line) (cost : Cost), l'.Within l ∧
      l'.cost?.run.value? = some (.ok (some cost, rest)) ∧
      (∀ label ∈ cost.label, Plain label.toList) ∧ cost.text = "\x7b# 250.0 USD, \"lot\"\x7d" ∧
      ∃ cost' : Cost, cost'.IsReadFrom (cost.postingText (.afterNewYear 0) "Assets:Cash"
          (.currencyOnly "USD")) "Assets:Cash" (.currencyOnly "USD") ∧
        cost'.Same cost.shown ∧
        (cost'.Same cost ↔ cost.perUnit = none ∧ cost.total = none ∨
          cost.currency.isSome ∧ cost.perUnit.isSome ≠ cost.total.isSome) := by
  have hafter : (Line.ofTokens (scan lotPurchaseText))[1]?.any fun l =>
      (l.tokens.take 4).all (·.kind ≠ .error) ∧ (l.tokens.drop 4).map Token.word =
        ofLot.words ++ (Price.unit ⟨.written "100", "USD"⟩).words := by
    decide +kernel
  obtain ⟨l, hl, l', hl', hwords⟩ := exists_rest hafter
  have hplain : ∀ label ∈ ofLot.label, Plain label.toList := by
    rintro label ⟨⟩
    exact List.all_iff_forall_prop.1 (by decide)
  have hprintable : ∀ cost ∈ some ofLot, cost.Printable := by
    rintro cost ⟨⟩
    exact ⟨hplain, .inr ⟨rfl, by decide⟩⟩
  obtain ⟨rest, hread, -⟩ := Line.cost?_yields hprintable hwords (by rintro w ⟨⟩; simp)
  have hcost : l'.cost?.run.value? = some (.ok (some ofLot.readBack, rest)) := by
    rw [hread]
    rfl
  have husd : ∀ c ∈ (Units.currencyOnly "USD").currency?, IsCurrency c.toList := by
    rintro c ⟨⟩
    exact isCurrency_usd
  exact ⟨l, hl, l', rest, ofLot.readBack, hl', hcost, hplain, by decide +kernel,
    reads_text_iff hl hl' hcost hplain isAccount_cash husd _⟩

/-! ## A cost that is not shown -/

/-- A purchase of shares, with a fee on top of their cost. -/
def sharesWithFee : String := "2024-01-15 *\n  Assets:Shares 2 CORP \x7b10 # 5 USD\x7d\n"

/-- A cost per unit with something on top of it. -/
theorem cost?_yields_both {l : Line} {n m : Decimal} {c : Currency} {ws : List Word}
    (h : l.words = (.leftBrace, ['\x7b']) :: (.number, n.toChars) :: (.hash, ['#']) ::
      ((⟨m, c⟩ : Amount).words ++ (.rightBrace, ['\x7d']) :: ws)) :
    Line.Yields l.cost? (some { perUnit := n.readBack, total := m.readBack, currency := c })
      ws := by
  have hnext : l.nextKind? = some .leftBrace := by
    rw [Line.nextKind?_of_words, h]
    rfl
  obtain ⟨t, ts, htokens, -, -, hbrace⟩ := Line.of_words_cons h
  obtain ⟨l₁, hl₁, hper⟩ := Line.number_reads_part hbrace (by rintro w ⟨⟩; simp) {}
  obtain ⟨u, us, -, -, hhash, htotal⟩ :=
    Line.costComponents_of_words hl₁ (by decide) { perUnit := n.readBack }
  obtain ⟨l₂, hnumber, hl₂⟩ := Line.expression_yields hhash (by rintro w ⟨⟩; simp)
  obtain ⟨l₃, hl₃, hcurrency⟩ :=
    Line.currency_reads_part hl₂ { perUnit := n.readBack, total := m.readBack }
  rw [Line.cost?, hnext, htokens]
  refine Line.Yields.bind ?_ fun l' hl' => .pure hl'
  rw [List.tail_cons, hper, htotal]
  simp only [hnumber, pure_bind]
  rw [hcurrency]
  exact Line.costComponents_of_parts (List.forall_mem_nil _) hl₃

/-- Ten dollars for each of the shares, and five on top. -/
def withFee : Cost where
  perUnit := some (Decimal.written "10").readBack
  total := some (Decimal.written "5").readBack
  currency := some "USD"

/-- The fee is read, and lost when the cost is printed. -/
theorem not_read_sharesWithFee :
    ∃ l ∈ Line.ofTokens (scan sharesWithFee), ∃ l' rest : Line, l'.Within l ∧
      l'.cost?.run.value? = some (.ok (some withFee, rest)) ∧ withFee.label = none ∧
      withFee.text = "\x7b10 USD\x7d" ∧
      ¬ ∃ cost' : Cost, cost'.IsReadFrom (withFee.postingText (.afterNewYear 14) "Assets:Shares"
          (.complete ⟨.written "2", "CORP"⟩)) "Assets:Shares" (.complete ⟨.written "2", "CORP"⟩) ∧
        cost'.Same withFee := by
  have hafter : (Line.ofTokens (scan sharesWithFee))[1]?.any fun l =>
      (l.tokens.take 3).all (·.kind ≠ .error) ∧ (l.tokens.drop 3).map Token.word =
        (.leftBrace, ['\x7b']) :: (.number, (Decimal.written "10").toChars) :: (.hash, ['#']) ::
          ((⟨.written "5", "USD"⟩ : Amount).words ++ [(.rightBrace, ['\x7d'])]) := by
    decide +kernel
  obtain ⟨l, hl, l', hl', hwords⟩ := exists_rest hafter
  obtain ⟨rest, hread, -⟩ := cost?_yields_both hwords
  have hcost : l'.cost?.run.value? = some (.ok (some withFee, rest)) := by
    rw [hread]
    rfl
  refine ⟨l, hl, l', rest, hl', hcost, rfl, by decide +kernel, ?_⟩
  have hunits : ∀ c ∈ (Units.complete ⟨.written "2", "CORP"⟩).currency?, IsCurrency c.toList := by
    rintro c ⟨⟩
    exact isCurrency_corp
  have hcurrency : ∀ c ∈ withFee.currency, IsCurrency c.toList := by
    rintro c ⟨⟩
    exact isCurrency_usd
  rintro ⟨cost', hcost', hsame⟩
  obtain ⟨cost'', hcost'', hshown⟩ := exists_isReadFrom isAccount_shares hunits hcurrency
    (by rintro label ⟨⟩) (.afterNewYear 14)
  obtain rfl := hcost'.unique hcost''
  obtain ⟨hnone, -⟩ | ⟨-, hne⟩ := (same_iff hshown).1 hsame
  · cases hnone
  · exact hne rfl

end Cost

end DoubleEntry
