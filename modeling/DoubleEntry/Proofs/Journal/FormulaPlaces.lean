import DoubleEntry.Proofs.Journal.Formula
import DoubleEntry.Proofs.Journal.Statements

/-!
# Formulas in amounts, costs and prices

What is read where a formula stands for a number: in a posting, in its cost and its price, and in
balance and price directives. All of it depends on the words of the formula only.

* `Formula.result?`: what a formula of words comes to.
* `Line.ok?_expression_of_words`: so does reading its words.
* `Quantity`, `PostingForm`: amounts and postings with formulas in place of their numbers.
* `Line.ok?_posting_of_words`: what is read of them.
* `Line.StopsShort`: an expression behind which something stands that follows no amount;
  `Line.posting_of_stopsShort` and others: then nothing is read.
-/

namespace DoubleEntry

open Token

namespace Formula

variable {α β : Type}

/-! ## Formulas of words -/

/-- What the operation of a sign gives, if it has a result. -/
def operate? (sign : Token.Kind) (a b : Decimal) : Option Decimal :=
  match sign with
  | .plus => (a.add b).value?
  | .minus => (a.sub b).value?
  | .star => (a.mul b).value?
  | _ => (a.div b).value?

/-- What a formula of words comes to, if all of its operations have a result. -/
def result? : Formula Word → Option Decimal
  | number w => Decimal.ofChars? (w.2.filter (· ≠ ','))
  | group _ e _ => e.result?
  | signed sign e => e.result?.map fun a => if sign.1 = .minus then a.neg else a
  | binary e sign f => e.result?.bind fun a => f.result?.bind fun b => operate? sign.1 a b

theorem ok?_operate (sign : Token) (a b : Decimal) :
    (operate sign a b).ok? = operate? sign.kind a b := by
  have hquotient : (Line.quotient a b sign.span).ok? = (a.div b).value? := by
    rw [Line.quotient]
    cases h : a.div b <;> rfl
  simp only [operate, operate?]
  cases sign.kind
  all_goals first | exact Reading.ok?_lift _ | exact hquotient

theorem ok?_value (e : Formula Token) : e.value.ok? = (e.map Token.word).result? := by
  induction e with
  | number t =>
    simp only [value, map, result?, Line.numberValue, Token.word]
    cases Decimal.ofChars? (t.text.toList.filter (· ≠ ',')) <;> rfl
  | group left e right ih => exact ih
  | signed sign e ih =>
    simp only [value, map, result?, Reading.ok?_bind, Reading.ok?_pure, ih, Token.word]
    exact Option.map_eq_bind.symm
  | binary e sign f ihe ihf =>
    simp only [value, map, result?, Reading.ok?_bind, ihe, ihf, ok?_operate, Token.word]

theorem Fits.of_map {f : α → β} {kind : β → Token.Kind} {level : Level} {e : Formula α}
    (h : (e.map f).Fits kind level) : e.Fits (kind ∘ f) level := by
  generalize he : e.map f = e' at h
  induction h generalizing e with
  | number ha =>
    cases e with
    | number a =>
      cases he
      exact .number ha
    | _ => cases he
  | group hleft _ hright ih =>
    cases e with
    | group left e right =>
      cases he
      exact .group hleft (ih rfl) hright
    | _ => cases he
  | signed hsign _ ih =>
    cases e with
    | signed sign e =>
      cases he
      exact .signed hsign (ih rfl)
    | _ => cases he
  | ofFactor _ ih => exact .ofFactor (ih he)
  | ofProduct _ ih => exact .ofProduct (ih he)
  | product _ hsign _ ihe ihf =>
    cases e with
    | binary e sign f =>
      cases he
      exact .product (ihe rfl) hsign (ihf rfl)
    | _ => cases he
  | sum _ hsign _ ihe ihf =>
    cases e with
    | binary e sign f =>
      cases he
      exact .sum (ihe rfl) hsign (ihf rfl)
    | _ => cases he

/-- What is laid out like a formula is one. -/
theorem exists_of_symbols {f : α → β} {e : Formula β} {symbols : List α}
    (h : symbols.map f = e.symbols) : ∃ e' : Formula α, e'.map f = e ∧ e'.symbols = symbols := by
  induction e generalizing symbols with
  | number b =>
    obtain ⟨a, rest, rfl, ha, hrest⟩ := List.map_eq_cons_iff.1 h
    obtain rfl := List.map_eq_nil_iff.1 hrest
    exact ⟨number a, congrArg number ha, rfl⟩
  | group left e right ih =>
    obtain ⟨before, last, rfl, hbefore, hlast⟩ := List.map_eq_append_iff.1 h
    obtain ⟨a, inside, rfl, ha, hinside⟩ := List.map_eq_cons_iff.1 hbefore
    obtain ⟨b, rest, rfl, hb, hrest⟩ := List.map_eq_cons_iff.1 hlast
    obtain rfl := List.map_eq_nil_iff.1 hrest
    obtain ⟨e', rfl, rfl⟩ := ih hinside
    exact ⟨group a e' b, by rw [map, ha, hb], rfl⟩
  | signed sign e ih =>
    obtain ⟨a, rest, rfl, ha, hrest⟩ := List.map_eq_cons_iff.1 h
    obtain ⟨e', rfl, rfl⟩ := ih hrest
    exact ⟨signed a e', by rw [map, ha], rfl⟩
  | binary e sign g ihe ihg =>
    obtain ⟨first, second, rfl, hfirst, hsecond⟩ := List.map_eq_append_iff.1 h
    obtain ⟨a, rest, rfl, ha, hrest⟩ := List.map_eq_cons_iff.1 hsecond
    obtain ⟨e', rfl, rfl⟩ := ihe hfirst
    obtain ⟨g', rfl, rfl⟩ := ihg hrest
    exact ⟨binary e' a g', by rw [map, ha], rfl⟩

/-- A formula begins with a number, an opening parenthesis or a sign. -/
theorem Fits.begins {kind : α → Token.Kind} {level : Level} {e : Formula α}
    (h : e.Fits kind level) : ∃ a rest, e.symbols = a :: rest ∧
      kind a ∈ [.number, .leftParen, .minus, .plus] := by
  induction h with
  | @number a ha => exact ⟨a, [], rfl, by simp [ha]⟩
  | @group left right e hleft _ _ _ => exact ⟨left, _, rfl, by simp [hleft]⟩
  | @signed sign e hsign _ _ =>
    refine ⟨sign, _, rfl, ?_⟩
    obtain h | h := hsign <;> simp [h]
  | ofFactor _ ih | ofProduct _ ih => exact ih
  | product _ _ _ ih _ | sum _ _ _ ih _ =>
    obtain ⟨a, rest, hsymbols, hkind⟩ := ih
    exact ⟨a, _, by rw [symbols, hsymbols]; rfl, hkind⟩

end Formula

/-! ## Reading a formula -/

namespace Line

variable {β : Type} {l : Line} {e : Formula Word} {ws : List Word}

/-- Words that are laid out like a formula are the words of one of tokens. -/
theorem exists_formula_of_words {level : Formula.Level} (he : e.Fits Prod.fst level)
    (hl : l.words = e.symbols ++ ws) :
    ∃ (e' : Formula Token) (rest : List Token), e'.map Token.word = e ∧
      e'.Fits Token.kind level ∧ l.tokens = e'.symbols ++ rest ∧ rest.map Token.word = ws := by
  obtain ⟨ts, rest, htokens, hts, hrest⟩ := List.map_eq_append_iff.1 hl
  obtain ⟨e', rfl, rfl⟩ := Formula.exists_of_symbols hts
  exact ⟨e', rest, rfl, he.of_map, htokens, hrest⟩

/-- What is true of the kind of the first word is true of that of the first token. -/
theorem forall_kind_of_words {P : Token.Kind → Prop} {rest : List Token}
    (hws : ∀ w ∈ (rest.map Token.word).head?, P w.1) : ∀ t ∈ rest.head?, P t.kind := by
  intro t ht
  exact hws t.word (by rw [List.head?_map, ht]; rfl)

/-- A product goes on with what follows the words of a formula. -/
theorem ok?_product_of_words (he : e.Fits Prod.fst .product) (hl : l.words = e.symbols ++ ws) :
    ∃ l' : Line, l'.words = ws ∧ (forget l.product).ok? =
      e.result?.bind fun a => (forget (l'.moreFactors a)).ok? := by
  obtain ⟨e, rest, rfl, he, htokens, hrest⟩ := exists_formula_of_words he hl
  refine ⟨l.withTokens rest, hrest, ?_⟩
  rw [readsFormula_of_fits he l rest htokens, Reading.ok?_bind, Formula.ok?_value]

/-- An expression goes on with what follows the words of a formula. -/
theorem ok?_sum_of_words (he : e.Fits Prod.fst .sum) (hl : l.words = e.symbols ++ ws)
    (hws : ∀ w ∈ ws.head?, w.1 ≠ .star ∧ w.1 ≠ .slash) :
    ∃ l' : Line, l'.words = ws ∧ (forget l.expression).ok? =
      e.result?.bind fun a => (forget (l'.moreProducts a)).ok? := by
  obtain ⟨e, rest, rfl, he, htokens, rfl⟩ := exists_formula_of_words he hl
  refine ⟨l.withTokens rest, rfl, ?_⟩
  have hstop := forall_kind_of_words (P := fun kind => kind ≠ .star ∧ kind ≠ .slash) hws
  rw [readsFormula_of_fits he l rest htokens hstop, Reading.ok?_bind, Formula.ok?_value]

/-- Reading the words of a formula comes to its result, in front of what is no sign. -/
theorem ok?_expression_of_words (he : e.Fits Prod.fst .sum) (hl : l.words = e.symbols ++ ws)
    (hws : ∀ w ∈ ws.head?, w.1 ∉ operators) :
    ∃ l' : Line, l'.words = ws ∧
      (forget l.expression).ok? = e.result?.map fun a => (a, l') := by
  obtain ⟨e, rest, rfl, he, htokens, rfl⟩ := exists_formula_of_words he hl
  refine ⟨l.withTokens rest, rfl, ?_⟩
  rw [forget_expression_of_fits he htokens (forall_kind_of_words (P := (· ∉ operators)) hws),
    Reading.ok?_bind, Formula.ok?_value, Option.map_eq_bind]
  rfl

theorem ok?_bind_expression (l : Line) (f : Decimal × Line → Reading β) :
    (l.expression >>= fun p => f (p.1, p.2.val)).ok? =
      (forget l.expression).ok?.bind fun p => (f p).ok? := by
  rw [bind_eq_forget, Reading.ok?_bind]

theorem startsExpression_of_fits (he : e.Fits Prod.fst .sum) (hl : l.words = e.symbols ++ ws) :
    l.startsExpression = true := by
  obtain ⟨w, rest, hsymbols, hkind⟩ := he.begins
  rw [startsExpression, nextKind?_of_words, hl, hsymbols]
  simp only [List.mem_cons, List.not_mem_nil, or_false] at hkind
  obtain h | h | h | h := hkind <;> simp [h]

end Line

/-! ## Quantities -/

/-- An amount with a formula in place of its number. -/
structure Quantity where
  formula : Formula Word
  currency : Currency

namespace Quantity

/-- The words of the quantity. -/
def words (q : Quantity) : List Word :=
  q.formula.symbols ++ [(.currency, q.currency.toList)]

/-- What the quantity comes to. -/
def result? (q : Quantity) : Option Amount := q.formula.result?.map fun n => ⟨n, q.currency⟩

/-- The formula is one of the grammar. -/
def Fits (q : Quantity) : Prop := q.formula.Fits Prod.fst .sum

end Quantity

/-- Words that end a quantity are no signs. -/
theorem currency_not_operator {cs : List Char} {ws : List Word} :
    ∀ w ∈ (((.currency, cs) : Word) :: ws).head?, w.1 ∉ Line.operators := by
  rintro w ⟨⟩
  simp [Line.operators]

namespace Line

variable {l : Line} {q : Quantity} {ws : List Word}

theorem ok?_currency_of_words {c : Currency} (hl : l.words = (.currency, c.toList) :: ws) :
    ∃ l' : Line, l'.words = ws ∧ l.currency.ok? = some (c, l') := by
  obtain ⟨l', hread, hl'⟩ := currency_yields hl
  exact ⟨l', hl', by rw [hread, Reading.ok?_pure]⟩

theorem ok?_amount_of_words (hq : q.Fits) (hl : l.words = q.words ++ ws) :
    ∃ l' : Line, l'.words = ws ∧ l.amount.ok? = q.result?.map fun a => (a, l') := by
  rw [Quantity.words, List.append_assoc, List.singleton_append] at hl
  obtain ⟨l₁, hl₁, hexpression⟩ := ok?_expression_of_words hq hl currency_not_operator
  obtain ⟨l₂, hl₂, hcurrency⟩ := ok?_currency_of_words hl₁
  refine ⟨l₂, hl₂, ?_⟩
  rw [amount]
  refine (ok?_bind_expression l fun p =>
    p.2.currency >>= fun c => pure ((⟨p.1, c.1⟩ : Amount), c.2)).trans ?_
  rw [hexpression, Quantity.result?]
  cases q.formula.result? with
  | none => rfl
  | some n => simp only [Option.map_some, Option.bind_some, Reading.ok?_bind, hcurrency,
      Reading.ok?_pure]

/-- What stands after the units of a posting: nothing, a cost or a price. -/
def StartsCostOrPrice (ws : List Word) : Prop :=
  ∀ w ∈ ws.head?, w.1 ∈ [.leftBrace, .doubleLeftBrace, .at, .doubleAt]

theorem ok?_units?_of_words {units : Option Quantity} (hunits : ∀ q ∈ units, q.Fits)
    (hl : l.words = units.elim [] Quantity.words ++ ws) (hws : StartsCostOrPrice ws) :
    ∃ l' : Line, l'.words = ws ∧ l.units?.ok? =
      (units.elim (some none) fun q => q.result?.map (some ∘ .complete)).map fun u => (u, l') := by
  cases units with
  | none =>
    have hkind : l.nextKind? ≠ some .currency ∧ l.startsExpression = false := by
      rw [startsExpression, nextKind?_of_words, hl]
      cases ws with
      | nil => exact ⟨by simp, rfl⟩
      | cons w ws =>
        have h := hws w rfl
        simp only [List.mem_cons, List.not_mem_nil, or_false] at h
        obtain h | h | h | h := h <;> simp [h]
    refine ⟨l, hl, ?_⟩
    rw [units?, hkind.2, if_neg Bool.false_ne_true, if_neg hkind.1]
    rfl
  | some q =>
    have hq : q.Fits := hunits q rfl
    rw [Option.elim_some, Quantity.words, List.append_assoc, List.singleton_append] at hl
    obtain ⟨l₁, hl₁, hexpression⟩ := ok?_expression_of_words hq hl currency_not_operator
    obtain ⟨l₂, hl₂, hcurrency⟩ := ok?_currency_of_words hl₁
    have hkind : l₁.nextKind? = some .currency := by
      rw [nextKind?_of_words, hl₁]
      rfl
    refine ⟨l₂, hl₂, ?_⟩
    rw [units?, startsExpression_of_fits hq hl, if_pos rfl]
    refine (ok?_bind_expression l fun p =>
      if p.2.nextKind? = some .currency then
        p.2.currency >>= fun c => pure (some (Units.complete ⟨p.1, c.1⟩), c.2)
      else pure (some (Units.numberOnly p.1), p.2)).trans ?_
    rw [hexpression, Option.elim_some, Quantity.result?]
    cases q.formula.result? with
    | none => rfl
    | some n =>
      simp only [Option.map_some, Option.bind_some, if_pos hkind, Reading.ok?_bind, hcurrency,
        Reading.ok?_pure]
      rfl

/-- The cost with another number, for one unit or in all. -/
def withNumber (double : Bool) (cost : Cost) (n : Decimal) : Cost :=
  if double then { cost with total := some n } else { cost with perUnit := some n }

/-- The cost of a quantity, for one unit or in all. -/
def costOf (double : Bool) (a : Amount) : Cost :=
  { withNumber double {} a.number with currency := some a.currency }

/-- The words of a cost. -/
def costWords (double : Bool) (inside : List Word) : List Word :=
  if double then
    (.doubleLeftBrace, ['\x7b', '\x7b']) :: inside ++ [(.doubleRightBrace, ['\x7d', '\x7d'])]
  else (.leftBrace, ['\x7b']) :: inside ++ [(.rightBrace, ['\x7d'])]

/-- The kind of the brace that closes a cost. -/
def closingBrace (double : Bool) : Token.Kind := if double then .doubleRightBrace else .rightBrace

/-- An expression in a cost is its number from there on. -/
theorem ok?_costComponents_of_starts (h : l.startsExpression) (double : Bool) (cost : Cost) :
    (l.costComponents double cost).ok? = (forget l.expression).ok?.bind fun p =>
      (p.2.costComponents double (withNumber double cost p.1)).ok? := by
  cases htokens : l.tokens with
  | nil => simp [startsExpression, nextKind?, htokens] at h
  | cons t ts =>
    have hbrace : t.kind ≠ closingBrace double := by
      intro hkind
      simp only [startsExpression, nextKind?, htokens, List.head?_cons, Option.map_some, hkind] at h
      cases double <;> simp [closingBrace] at h
    rw [closingBrace] at hbrace
    rw [costComponents_eq htokens, if_neg hbrace, if_pos h]
    exact ok?_bind_expression l fun p => p.2.costComponents double (withNumber double cost p.1)

/-- The currency and then the closing brace end a cost. -/
theorem costComponents_of_end {double : Bool} {c : Currency} {closing : Word}
    (hclosing : closing.1 = closingBrace double)
    (hl : l.words = (.currency, c.toList) :: closing :: ws) :
    ∃ l' : Line, l'.words = ws ∧ ∀ cost : Cost,
      l.costComponents double cost = pure ({ cost with currency := some c }, l') := by
  obtain ⟨t, ts, ht, hkind, htext, hrest⟩ := of_words_cons hl
  obtain ⟨brace, ts', hbrace, hword, hrest'⟩ := List.map_eq_cons_iff.1 hrest
  have hclose : brace.kind = closingBrace double := by
    rw [← hclosing, ← hword]
    rfl
  have hcurrency : t.text = c := String.toList_inj.1 htext
  have hne : t.kind ≠ closingBrace double := by
    rw [hkind]
    cases double <;> simp [closingBrace]
  have hstarts : l.startsExpression = false := by
    rw [startsExpression, nextKind?_of_words, hl]
    rfl
  rw [closingBrace] at hne hclose
  refine ⟨l.withTokens ts', hrest', fun cost => ?_⟩
  rw [costComponents_eq ht, if_neg hne, hstarts, if_neg Bool.false_ne_true, hkind]
  simp only
  rw [costComponents_eq hbrace, if_pos hclose, hcurrency]
  rfl

/-- What is read of the words inside a cost. -/
def ReadsInside (double : Bool) (inside : List Word) (result : Option Amount) : Prop :=
  ∀ (l : Line) (closing : Word) (ws : List Word), closing.1 = closingBrace double →
    l.words = inside ++ closing :: ws → ∃ l' : Line, l'.words = ws ∧
      (l.costComponents double {}).ok? = result.map fun a => (costOf double a, l')

theorem readsInside_words (hq : q.Fits) (double : Bool) : ReadsInside double q.words q.result? := by
  intro l closing ws hclosing hl
  rw [Quantity.words, List.append_assoc, List.singleton_append] at hl
  obtain ⟨l₁, hl₁, hexpression⟩ := ok?_expression_of_words hq hl currency_not_operator
  obtain ⟨l₂, hl₂, hend⟩ := costComponents_of_end hclosing hl₁
  refine ⟨l₂, hl₂, ?_⟩
  rw [ok?_costComponents_of_starts (startsExpression_of_fits hq hl), hexpression, Quantity.result?]
  cases q.formula.result? with
  | none => rfl
  | some n =>
    simp only [Option.map_some, Option.bind_some, hend, Reading.ok?_pure]
    rfl

theorem ok?_cost?_of_words {cost : Option (Bool × Quantity)} {inside : Quantity → List Word}
    {result : Quantity → Option Amount}
    (hcost : ∀ c ∈ cost, ReadsInside c.1 (inside c.2) (result c.2))
    (hl : l.words = (cost.elim [] fun c => costWords c.1 (inside c.2)) ++ ws)
    (hws : ∀ w ∈ ws.head?, w.1 ∈ [.at, .doubleAt]) :
    ∃ l' : Line, l'.words = ws ∧ l.cost?.ok? =
      (cost.elim (some none) fun c => (result c.2).map (some ∘ costOf c.1)).map
        fun c => (c, l') := by
  have hnext := nextKind?_of_words l
  cases cost with
  | none =>
    have hnone : l.cost? = pure (none, l) := by
      rw [cost?, hnext, hl]
      cases ws with
      | nil => rfl
      | cons w ws =>
        have h := hws w rfl
        simp only [List.mem_cons, List.not_mem_nil, or_false] at h
        obtain h | h := h <;> simp [h]
    exact ⟨l, hl, by rw [hnone]; rfl⟩
  | some c =>
    obtain ⟨double, q⟩ := c
    have hcons : ∃ opening closing, l.words = opening :: (inside q ++ closing :: ws) ∧
        opening.1 = (if double then .doubleLeftBrace else .leftBrace) ∧
        closing.1 = closingBrace double := by
      rw [hl, Option.elim_some, costWords]
      cases double <;> simp [closingBrace]
    obtain ⟨opening, closing, hl, hopening, hclosing⟩ := hcons
    obtain ⟨t, ts, htokens, -, -, hrest⟩ := of_words_cons hl
    obtain ⟨l', hl', hread⟩ := hcost _ rfl _ _ _ hclosing hrest
    refine ⟨l', hl', ?_⟩
    rw [cost?, hnext, hl, htokens]
    simp only [List.head?_cons, Option.map_some, hopening, List.tail_cons, Option.elim_some]
    cases double <;> simp only [Bool.false_eq_true, if_false, if_true, Reading.ok?_bind, hread] <;>
      cases result q <;> rfl

/-- The price of a quantity, for one unit or in all. -/
def priceOf (double : Bool) (a : Amount) : Price := if double then .total a else .unit a

/-- The words of a price. -/
def priceWords (double : Bool) (inside : List Word) : List Word :=
  (if double then (.doubleAt, ['@', '@']) else (.at, ['@'])) :: inside

theorem ok?_price?_of_words {price : Option (Bool × Quantity)} (hprice : ∀ c ∈ price, c.2.Fits)
    (hl : l.words = price.elim [] fun c => priceWords c.1 c.2.words) :
    ∃ l' : Line, l'.words = [] ∧ l.price?.ok? =
      (price.elim (some none) fun c => c.2.result?.map (some ∘ priceOf c.1)).map
        fun c => (c, l') := by
  have hnext := nextKind?_of_words l
  cases price with
  | none =>
    have hnone : l.price? = pure (none, l) := by
      rw [price?, hnext, hl]
      rfl
    exact ⟨l, hl, by rw [hnone]; rfl⟩
  | some c =>
    obtain ⟨double, q⟩ := c
    have hq : q.Fits := hprice _ rfl
    have hcons : ∃ w, l.words = w :: (q.words ++ []) ∧
        w.1 = if double then .doubleAt else .at := by
      rw [hl, Option.elim_some, priceWords, List.append_nil]
      refine ⟨_, rfl, ?_⟩
      cases double <;> rfl
    obtain ⟨w, hl, hkind⟩ := hcons
    obtain ⟨t, ts, htokens, -, -, hrest⟩ := of_words_cons hl
    obtain ⟨l', hl', hread⟩ := ok?_amount_of_words hq hrest
    refine ⟨l', hl', ?_⟩
    rw [price?, hnext, hl, htokens]
    simp only [List.head?_cons, Option.map_some, hkind, List.tail_cons, Option.elim_some]
    cases double <;> simp only [Bool.false_eq_true, if_false, if_true, Reading.ok?_bind, hread] <;>
      cases q.result? <;> rfl

end Line

/-! ## Postings -/

/-- A posting with formulas in place of its numbers. Of the cost and the price it is told whether
they are for all units. -/
structure PostingForm where
  account : Account
  units : Option Quantity := none
  cost : Option (Bool × Quantity) := none
  price : Option (Bool × Quantity) := none

namespace PostingForm

/-- All quantities of the posting. -/
def quantities (p : PostingForm) : List Quantity :=
  p.units.toList ++ (p.cost.toList.map Prod.snd ++ p.price.toList.map Prod.snd)

/-- The words of the posting, given those of its quantities. -/
def wordsOf (words : Quantity → List Word) (p : PostingForm) : List Word :=
  (.account, p.account.toList) :: (p.units.elim [] words ++
    ((p.cost.elim [] fun c => Line.costWords c.1 (words c.2)) ++
      p.price.elim [] fun c => Line.priceWords c.1 (words c.2)))

/-- The words of the posting. -/
def words (p : PostingForm) : List Word := p.wordsOf Quantity.words

/-- What the posting comes to on a line, given what amounts and costs come to. -/
def resultOf (amount cost : Quantity → Option Amount) (p : PostingForm) (line : Nat) :
    Option Posting := do
  let units ← p.units.elim (some none) fun q => (amount q).map (some ∘ .complete)
  let cost ← p.cost.elim (some none) fun c => (cost c.2).map (some ∘ Line.costOf c.1)
  let price ← p.price.elim (some none) fun c => (amount c.2).map (some ∘ Line.priceOf c.1)
  return { account := p.account, units, cost, price, metadata := ({} : Metadata).setLine line }

/-- What the posting comes to on a line. -/
def result? (p : PostingForm) (line : Nat) : Option Posting :=
  p.resultOf Quantity.result? Quantity.result? line

theorem forall_mem_quantities {p : PostingForm} {P : Quantity → Prop} :
    (∀ q ∈ p.quantities, P q) ↔
      (∀ q ∈ p.units, P q) ∧ (∀ c ∈ p.cost, P c.2) ∧ ∀ c ∈ p.price, P c.2 := by
  simp only [quantities, List.forall_mem_append, List.forall_mem_map, Option.mem_toList]
  rfl

theorem startsPrice (words : Quantity → List Word) (p : PostingForm) :
    ∀ w ∈ (p.price.elim [] fun c => Line.priceWords c.1 (words c.2)).head?,
      w.1 ∈ [.at, .doubleAt] := by
  obtain _ | ⟨double, q⟩ := p.price
  · rintro w ⟨⟩
  · rintro w ⟨⟩
    cases double <;> simp

end PostingForm

namespace Line

variable {l : Line} {ws : List Word} {units : Option Quantity} {cost : Option (Bool × Quantity)}
  {inside : Quantity → List Word} {result : Quantity → Option Amount}

theorem startsCostOrPrice (cost : Option (Bool × Quantity)) (inside : Quantity → List Word)
    (hws : ∀ w ∈ ws.head?, w.1 ∈ [.at, .doubleAt]) :
    StartsCostOrPrice ((cost.elim [] fun c => costWords c.1 (inside c.2)) ++ ws) := by
  obtain _ | ⟨double, q⟩ := cost
  · intro w hw
    have h := hws w hw
    simp only [List.mem_cons, List.not_mem_nil, or_false] at h ⊢
    exact .inr (.inr h)
  · cases double
    · rintro w ⟨⟩
      decide
    · rintro w ⟨⟩
      decide

/-- A posting that begins with an account has no flag. -/
theorem postingFlag?_of_account {cs : List Char} (hl : l.words = (.account, cs) :: ws) :
    ∃ l' : Line, l'.words = (.account, cs) :: ws ∧ l.postingFlag? = (none, l') :=
  postingFlag?_of_words hl

/-- A posting is read up to its price. -/
theorem ok?_posting_of_words_before {account : Account} (hunits : ∀ q ∈ units, q.Fits)
    (hcost : ∀ c ∈ cost, ReadsInside c.1 (inside c.2) (result c.2))
    (hws : ∀ w ∈ ws.head?, w.1 ∈ [.at, .doubleAt])
    (hl : l.words = (.account, account.toList) :: (units.elim [] Quantity.words ++
      ((cost.elim [] fun c => costWords c.1 (inside c.2)) ++ ws))) :
    ∃ l' : Line, l'.words = ws ∧ l.posting.ok? = (do
      let units ← units.elim (some none) fun q => q.result?.map (some ∘ .complete)
      let cost ← cost.elim (some none) fun c => (result c.2).map (some ∘ costOf c.1)
      let price ← l'.price?.ok?
      price.2.finish.ok?
      return { account, units, cost, price := price.1
               metadata := ({} : Metadata).setLine l.number }) := by
  obtain ⟨l₁, hl₁, hflag⟩ := postingFlag?_of_account hl
  obtain ⟨l₂, haccount, hl₂⟩ := account_yields hl₁
  obtain ⟨l₃, hl₃, hunits⟩ := ok?_units?_of_words hunits hl₂ (startsCostOrPrice cost inside hws)
  obtain ⟨l₄, hl₄, hcost⟩ := ok?_cost?_of_words hcost hl₃ hws
  refine ⟨l₄, hl₄, ?_⟩
  rw [posting, hflag]
  simp only [haccount, pure_bind, Reading.ok?_bind, hunits, Option.bind_map, Function.comp_def,
    hcost, Reading.ok?_pure]
  rfl

/-- The words of a posting come to its result. -/
theorem ok?_posting_of_words {p : PostingForm} (hp : ∀ q ∈ p.quantities, q.Fits)
    (hl : l.words = p.words) : l.posting.ok? = p.result? l.number := by
  obtain ⟨hunits, hcost, hprice⟩ := PostingForm.forall_mem_quantities.1 hp
  obtain ⟨l₁, hl₁, hposting⟩ := ok?_posting_of_words_before hunits
    (fun c hc => readsInside_words (hcost c hc) c.1) (p.startsPrice Quantity.words) hl
  obtain ⟨l₂, hl₂, hread⟩ := ok?_price?_of_words hprice hl₁
  rw [hposting, hread, PostingForm.result?, PostingForm.resultOf]
  simp only [Option.bind_eq_bind, Option.bind_map, Function.comp_def, finish_of_words hl₂,
    Reading.ok?_pure, Option.bind_some]

end Line

/-! ## Balance and price directives -/

namespace Line

variable {l : Line} {q : Quantity} {ws : List Word} {place : Span}

theorem ok?_balance_of_words {account : Account} (hq : q.Fits)
    (hl : l.words = (.account, account.toList) :: q.words) :
    (l.wholeStatement .balance place).ok? =
      q.result?.map fun a => .balance ⟨account, a, none⟩ := by
  obtain ⟨l₁, haccount, hl₁⟩ := account_yields hl
  rw [Quantity.words] at hl₁
  obtain ⟨l₂, hl₂, hexpression⟩ := ok?_expression_of_words hq hl₁ currency_not_operator
  obtain ⟨l₃, hcurrency, hl₃⟩ := currency_yields hl₂
  have htolerance : l₂.tolerance? = pure (none, l₂) := by
    rw [tolerance?, nextKind?_of_words, hl₂]
    rfl
  simp only [wholeStatement, statement, haccount, pure_bind, bind_assoc]
  refine (ok?_bind_expression l₁ fun p => p.2.tolerance? >>= fun t => t.2.currency >>= fun c =>
    c.2.finish >>= fun _ => pure (Directive.Body.balance ⟨account, ⟨p.1, c.1⟩, t.1⟩)).trans ?_
  rw [hexpression, Quantity.result?]
  cases q.formula.result? with
  | none => rfl
  | some n =>
    simp only [Option.map_some, Option.bind_some, htolerance, hcurrency, pure_bind,
      finish_of_words hl₃, Reading.ok?_pure]

theorem ok?_price_of_words {c : Currency} (hq : q.Fits)
    (hl : l.words = (.currency, c.toList) :: q.words) :
    (l.wholeStatement .price place).ok? = q.result?.map (.price c) := by
  obtain ⟨l₁, hcurrency, hl₁⟩ := currency_yields hl
  rw [← List.append_nil q.words] at hl₁
  obtain ⟨l₂, hl₂, hread⟩ := ok?_amount_of_words hq hl₁
  simp only [wholeStatement, statement, hcurrency, pure_bind, bind_assoc, Reading.ok?_bind, hread]
  cases q.result? with
  | none => rfl
  | some a => simp only [Option.map_some, Option.bind_some, finish_of_words hl₂, Reading.ok?_pure]

/-! ## Expressions that stop short -/

/-- The words begin with an expression that cannot be read, or behind which a number, a comma or an
error stands. -/
def StopsShort (ws : List Word) : Prop :=
  ∀ l : Line, l.words = ws → l.startsExpression ∧ ∀ n l', (forget l.expression).ok? = some (n, l') →
    ∃ kind ∈ [Token.Kind.number, .comma, .error], l'.nextKind? = some kind

/-- No amount ends so, and no line. -/
theorem not_read_of_nextKind? {kind : Token.Kind} (h : l.nextKind? = some kind)
    (hkind : kind ∈ [Token.Kind.number, .comma, .error]) :
    l.nextKind? ≠ some .currency ∧ l.currency.ok? = none ∧ l.tolerance? = pure (none, l) ∧
      l.cost? = pure (none, l) ∧ l.price? = pure (none, l) ∧ l.finish.ok? = none := by
  obtain ⟨t, ht, rfl⟩ := Option.map_eq_some_iff.1 h
  obtain ⟨ts, htokens⟩ := List.head?_eq_some_iff.1 ht
  simp only [List.mem_cons, List.not_mem_nil, or_false] at hkind
  rw [h]
  refine ⟨?_, ?_, ?_, ?_, ?_, ?_⟩
  · obtain hkind | hkind | hkind := hkind <;> simp [hkind]
  · rw [currency, token, htokens]
    obtain hkind | hkind | hkind := hkind <;> simp [hkind]
  · rw [tolerance?, h]
    obtain hkind | hkind | hkind := hkind <;> simp [hkind]
  · rw [cost?, h]
    obtain hkind | hkind | hkind := hkind <;> simp [hkind]
  · rw [price?, h]
    obtain hkind | hkind | hkind := hkind <;> simp [hkind]
  · rw [finish, htokens]
    obtain hkind | hkind | hkind := hkind <;> simp [hkind, htokens]

theorem ok?_amount_of_stopsShort (h : StopsShort ws) (hl : l.words = ws) :
    l.amount.ok? = none := by
  rw [amount]
  refine (ok?_bind_expression l fun p =>
    p.2.currency >>= fun c => pure ((⟨p.1, c.1⟩ : Amount), c.2)).trans ?_
  refine Option.bind_eq_none_iff.2 fun p hp => ?_
  obtain ⟨kind, hkind, hnext⟩ := (h l hl).2 _ _ hp
  rw [Reading.ok?_bind, (not_read_of_nextKind? hnext hkind).2.1]
  rfl

theorem ok?_balance_of_stopsShort {account : Account} (h : StopsShort ws)
    (hl : l.words = (.account, account.toList) :: ws) :
    (l.wholeStatement .balance place).ok? = none := by
  obtain ⟨l₁, haccount, hl₁⟩ := account_yields hl
  simp only [wholeStatement, statement, haccount, pure_bind, bind_assoc]
  refine (ok?_bind_expression l₁ fun p => p.2.tolerance? >>= fun t => t.2.currency >>= fun c =>
    c.2.finish >>= fun _ => pure (Directive.Body.balance ⟨account, ⟨p.1, c.1⟩, t.1⟩)).trans ?_
  refine Option.bind_eq_none_iff.2 fun p hp => ?_
  obtain ⟨kind, hkind, hnext⟩ := (h l₁ hl₁).2 _ _ hp
  obtain ⟨-, hcurrency, htolerance, -⟩ := not_read_of_nextKind? hnext hkind
  simp only [htolerance, pure_bind, Reading.ok?_bind, hcurrency, Option.bind_none]

theorem ok?_price_of_stopsShort {c : Currency} (h : StopsShort ws)
    (hl : l.words = (.currency, c.toList) :: ws) : (l.wholeStatement .price place).ok? = none := by
  obtain ⟨l₁, hcurrency, hl₁⟩ := currency_yields hl
  simp only [wholeStatement, statement, hcurrency, pure_bind, bind_assoc, Reading.ok?_bind,
    ok?_amount_of_stopsShort h hl₁, Option.bind_none]

/-- A posting is not read if its amount stops short. -/
theorem ok?_posting_of_stopsShort {account : Account} (h : StopsShort ws)
    (hl : l.words = (.account, account.toList) :: ws) : l.posting.ok? = none := by
  obtain ⟨l₁, hl₁, hflag⟩ := postingFlag?_of_account hl
  obtain ⟨l₂, haccount, hl₂⟩ := account_yields hl₁
  obtain ⟨hstarts, hstops⟩ := h l₂ hl₂
  rw [posting, hflag]
  simp only [haccount, pure_bind, units?, hstarts, if_true, bind_assoc]
  refine (ok?_bind_expression l₂ fun p =>
    (if p.2.nextKind? = some .currency then
        p.2.currency >>= fun c => pure (some (Units.complete ⟨p.1, c.1⟩), c.2)
      else pure (some (Units.numberOnly p.1), p.2)) >>= fun units =>
    units.2.cost? >>= fun cost => cost.2.price? >>= fun price => price.2.finish >>= fun _ =>
      pure { account, units := units.1, cost := cost.1, price := price.1, flag := none
             metadata := ({} : Metadata).setLine l.number : Posting }).trans ?_
  refine Option.bind_eq_none_iff.2 fun p hp => ?_
  obtain ⟨kind, hkind, hnext⟩ := hstops _ _ hp
  obtain ⟨hne, -, -, hcost, hprice, hfinish⟩ := not_read_of_nextKind? hnext hkind
  simp only [if_neg hne, hcost, hprice, pure_bind, Reading.ok?_bind, hfinish, Option.bind_none]

/-- A posting is not read if its price stops short. -/
theorem ok?_posting_of_price_stopsShort {account : Account} {units : Option Quantity}
    {cost : Option (Bool × Quantity)} {inside : Quantity → List Word}
    {result : Quantity → Option Amount} {sign : Word} (hunits : ∀ q ∈ units, q.Fits)
    (hcost : ∀ c ∈ cost, ReadsInside c.1 (inside c.2) (result c.2))
    (hsign : sign.1 ∈ [.at, .doubleAt]) (h : StopsShort ws)
    (hl : l.words = (.account, account.toList) :: (units.elim [] Quantity.words ++
      ((cost.elim [] fun c => costWords c.1 (inside c.2)) ++ sign :: ws))) :
    l.posting.ok? = none := by
  have hprice : ∀ w ∈ (sign :: ws).head?, w.1 ∈ [.at, .doubleAt] := by
    rintro w ⟨⟩
    exact hsign
  obtain ⟨l₁, hl₁, hposting⟩ := ok?_posting_of_words_before hunits hcost hprice hl
  obtain ⟨t, ts, htokens, -, -, hrest⟩ := of_words_cons hl₁
  have hnone : l₁.price?.ok? = none := by
    have hamount := ok?_amount_of_stopsShort h hrest
    rw [price?, nextKind?_of_words, hl₁, htokens]
    simp only [List.mem_cons, List.not_mem_nil, or_false] at hsign
    obtain hsign | hsign := hsign <;> simp [hsign, hamount]
  rw [hposting, hnone]
  simp only [Option.bind_eq_bind, Option.bind_none, Option.bind_fun_none]

end Line

end DoubleEntry
