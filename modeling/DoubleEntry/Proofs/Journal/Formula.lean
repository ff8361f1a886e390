import DoubleEntry.Proofs.Journal.Expression
import DoubleEntry.Proofs.Journal.Reads
import DoubleEntry.Proofs.Sample
import DoubleEntry.Token.Lexer

/-!
# Formulas

An expression is a formula that is laid out as tokens. It is read as the grammar says, from the left
and with the usual precedence, and what follows it is left alone.

* `Formula`: numbers, signs and parentheses as a tree; `Formula.symbols` lays it out.
* `Formula.Fits`: which formulas the grammar has for sums, products and factors.
* `Formula.value`: what a formula comes to. It can come to a number (`Formula.Gives`), to a division
  without a result (`Formula.Fails`), or to a number that does not fit (`Formula.Overflows`).
* `Line.readsFormula_of_fits`: reading the tokens of a formula is finding its value.
* `Line.expression_formula`: so an expression has the value of its formula, or an error at the first
  division without a result.
-/

namespace DoubleEntry

/-- An arithmetic expression as a tree. Each number, sign and parenthesis has a symbol. -/
inductive Formula (α : Type) where
  | number (literal : α)
  | group (left : α) (inside : Formula α) (right : α)
  | signed (sign : α) (operand : Formula α)
  | binary (first : Formula α) (sign : α) (second : Formula α)

namespace Formula

variable {α β : Type}

/-- The symbols in the order in which they are written. -/
def symbols : Formula α → List α
  | number a => [a]
  | group left e right => left :: e.symbols ++ [right]
  | signed sign e => sign :: e.symbols
  | binary e sign f => e.symbols ++ sign :: f.symbols

/-- The symbols of the numbers. -/
def literals : Formula α → List α
  | number a => [a]
  | group _ e _ | signed _ e => e.literals
  | binary e _ f => e.literals ++ f.literals

/-- The same formula with other symbols. -/
def map (f : α → β) : Formula α → Formula β
  | number a => number (f a)
  | group left e right => group (f left) (e.map f) (f right)
  | signed sign e => signed (f sign) (e.map f)
  | binary e sign e' => binary (e.map f) (f sign) (e'.map f)

/-! ## The grammar -/

/-- What the grammar takes a formula for. -/
inductive Level where
  | sum | product | factor

/-- The formulas that the grammar has for each level, given the kinds of the symbols. A sum goes on
to the right of its first sum, and so does a product. -/
inductive Fits (kind : α → Token.Kind) : Level → Formula α → Prop
  | number {a : α} (ha : kind a = .number) : Fits kind .factor (.number a)
  | group {left right : α} {e : Formula α} (hleft : kind left = .leftParen)
      (he : Fits kind .sum e) (hright : kind right = .rightParen) :
      Fits kind .factor (.group left e right)
  | signed {sign : α} {e : Formula α} (hsign : kind sign = .plus ∨ kind sign = .minus)
      (he : Fits kind .factor e) : Fits kind .factor (.signed sign e)
  | ofFactor {e : Formula α} (he : Fits kind .factor e) : Fits kind .product e
  | product {e f : Formula α} {sign : α} (he : Fits kind .product e)
      (hsign : kind sign = .star ∨ kind sign = .slash) (hf : Fits kind .factor f) :
      Fits kind .product (.binary e sign f)
  | ofProduct {e : Formula α} (he : Fits kind .product e) : Fits kind .sum e
  | sum {e f : Formula α} {sign : α} (he : Fits kind .sum e)
      (hsign : kind sign = .plus ∨ kind sign = .minus) (hf : Fits kind .product f) :
      Fits kind .sum (.binary e sign f)

/-! ## Values -/

/-- What the formula comes to: operands are taken from the left, and the first division without a
result is an error at its sign. -/
def value : Formula Token → Reading Decimal
  | number t => Line.numberValue t
  | group _ e _ => e.value
  | signed sign e => do
    let a ← e.value
    return if sign.kind = .minus then a.neg else a
  | binary e sign f => do
    let a ← e.value
    let b ← f.value
    operate sign a b

/-- The formula comes to the number. -/
def Gives (e : Formula Token) (a : Decimal) : Prop := e.value.run.value? = some (.ok a)

/-- The first division of the formula without a result, when operands are taken from the left, has
this sign. -/
inductive Fails : Formula Token → Token → Prop
  | group {left right slash : Token} {e : Formula Token} (he : Fails e slash) :
      Fails (.group left e right) slash
  | signed {sign slash : Token} {e : Formula Token} (he : Fails e slash) :
      Fails (.signed sign e) slash
  | first {sign slash : Token} {e f : Formula Token} (he : Fails e slash) :
      Fails (.binary e sign f) slash
  | second {sign slash : Token} {e f : Formula Token} {a : Decimal} (he : e.Gives a)
      (hf : Fails f slash) : Fails (.binary e sign f) slash
  | division {slash : Token} {e f : Formula Token} {a b : Decimal} (he : e.Gives a)
      (hf : f.Gives b) (hslash : slash.kind = .slash) (hnone : (a.div b).value? = none) :
      Fails (.binary e slash f) slash

/-- The first operation of the formula that fails, when operands are taken from the left, is one
whose result does not fit. -/
inductive Overflows : Formula Token → Prop
  | group {left right : Token} {e : Formula Token} (he : Overflows e) :
      Overflows (.group left e right)
  | signed {sign : Token} {e : Formula Token} (he : Overflows e) : Overflows (.signed sign e)
  | first {sign : Token} {e f : Formula Token} (he : Overflows e) : Overflows (.binary e sign f)
  | second {sign : Token} {e f : Formula Token} {a : Decimal} (he : e.Gives a)
      (hf : Overflows f) : Overflows (.binary e sign f)
  | operation {sign : Token} {e f : Formula Token} {a b : Decimal} {failure : ArithmeticError}
      (he : e.Gives a) (hf : f.Gives b)
      (h : sign.kind = .plus ∧ a.add b = .error failure ∨
        sign.kind = .minus ∧ a.sub b = .error failure ∨
        sign.kind = .star ∧ a.mul b = .error failure) : Overflows (.binary e sign f)

/-- The formula comes to a number, to a division without a result, or to a number that does not
fit. -/
def IsDecided (e : Formula Token) : Prop :=
  Reads e.Gives (fun error => ∃ slash, e.Fails slash ∧ error = ⟨.noQuotient, slash.span⟩)
    (fun _ => e.Overflows) e.value

/-- What fails so has no value. -/
theorem Overflows.exists_failure {e : Formula Token} (h : e.Overflows) :
    ∃ failure, e.value.run = .error failure := by
  have hbind {x : Reading Decimal} {f : Decimal → Reading Decimal}
      (h : (∃ failure, x.run = .error failure) ∨
        ∃ a, x.run.value? = some (.ok a) ∧ ∃ failure, (f a).run = .error failure) :
      ∃ failure, (x >>= f).run = .error failure := by
    rw [ExceptT.run_bind]
    obtain ⟨failure, h⟩ | ⟨a, ha, failure, h⟩ := h
    · exact ⟨failure, Checked.bind_eq_error_iff.2 (.inl h)⟩
    · exact ⟨failure, Checked.bind_eq_error_iff.2 (.inr ⟨.ok a, ha, h⟩)⟩
  induction h with
  | group _ ih => exact ih
  | signed _ ih | first _ ih => exact hbind (.inl ih)
  | second he _ ih => exact hbind (.inr ⟨_, he, hbind (.inl ih)⟩)
  | operation he hf h =>
    refine hbind (.inr ⟨_, he, hbind (.inr ⟨_, hf, ?_⟩)⟩)
    obtain ⟨hsign, h⟩ | ⟨hsign, h⟩ | ⟨hsign, h⟩ := h
    all_goals
      simp only [operate, hsign, h]
      exact ⟨_, rfl⟩

theorem not_overflows_of_gives {e : Formula Token} {a : Decimal} (h : e.Gives a) :
    ¬e.Overflows := by
  intro hover
  obtain ⟨failure, hfail⟩ := hover.exists_failure
  rw [Gives, hfail] at h
  cases h

theorem isDecided_number {t : Token} {a : Decimal} (h : Line.numberValue t = pure a) :
    (number t).IsDecided := by
  have hvalue : (number t).value = pure a := h
  rw [IsDecided, hvalue]
  exact .pure (by rw [Gives, hvalue]; rfl)

/-- An operand fails where the whole formula does. -/
theorem IsDecided.operand {e outer : Formula Token} (h : e.IsDecided)
    (hfails : ∀ slash, e.Fails slash → outer.Fails slash)
    (hover : e.Overflows → outer.Overflows) :
    Reads e.Gives (fun error => ∃ slash, outer.Fails slash ∧ error = ⟨.noQuotient, slash.span⟩)
      (fun _ => outer.Overflows) e.value :=
  Reads.mono h (fun _ h => h)
    (fun _ ⟨slash, hslash, herror⟩ => ⟨slash, hfails slash hslash, herror⟩) fun _ => hover

theorem IsDecided.signed {sign : Token} {e : Formula Token} (h : e.IsDecided) :
    (signed sign e).IsDecided := by
  refine (h.operand (fun _ => .signed) .signed).bind fun a ha => .pure ?_
  exact Checked.bind_eq_ok.2 ⟨a, ha, rfl⟩

/-- An operation is decided as soon as both of its sides are, the left one first. -/
theorem IsDecided.binary {sign : Token} {e f : Formula Token}
    (hsign : sign.kind ∈ [.plus, .minus, .star, .slash]) (he : e.IsDecided) (hf : f.IsDecided) :
    (binary e sign f).IsDecided := by
  refine (he.operand (fun _ => .first) .first).bind fun a ha => ?_
  refine (hf.operand (fun _ => .second ha) (.second ha)).bind fun b hb => ?_
  refine (operate_reads hsign a b).mono (fun c hc => ?_) ?_ ?_
  · exact Checked.bind_eq_ok.2 ⟨a, ha, Checked.bind_eq_ok.2 ⟨b, hb, hc⟩⟩
  · rintro error ⟨hslash, hnone, rfl⟩
    exact ⟨sign, .division ha hb hslash hnone, rfl⟩
  · exact fun failure h => .operation ha hb h

/-- A formula with readable numbers has a value, a division without one, or an operation that does
not fit. -/
theorem isDecided_of_fits {e : Formula Token} {level : Level} (he : e.Fits Token.kind level)
    (hnumbers : ∀ t ∈ e.literals, ∃ a, Line.numberValue t = pure a) : e.IsDecided := by
  induction he with
  | number ha =>
    obtain ⟨a, ha⟩ := hnumbers _ List.mem_cons_self
    exact isDecided_number ha
  | group _ _ _ ihe =>
    refine Reads.mono (ihe hnumbers) (fun _ h => h) ?_ fun _ h => .group h
    exact fun error ⟨slash, hslash, herror⟩ => ⟨slash, .group hslash, herror⟩
  | signed _ _ ihe => exact (ihe hnumbers).signed
  | ofFactor _ ihe | ofProduct _ ihe => exact ihe hnumbers
  | product _ hsign _ ihe ihf | sum _ hsign _ ihe ihf =>
    obtain ⟨he, hf⟩ := List.forall_mem_append.1 hnumbers
    exact (ihe he).binary (by obtain h | h := hsign <;> simp [h]) (ihf hf)

end Formula

/-! ## Reading -/

namespace Line

open Formula

variable {l : Line} {e f : Formula Token} {t : Token} {ts rest : List Token}

theorem withTokens_withTokens (l : Line) (ts us : List Token) :
    (l.withTokens ts).withTokens us = l.withTokens us := rfl

/-- What reading a formula on a level comes to. A factor is read, and the rest is left; a product or
a sum goes on with what follows, of which nothing is known yet. -/
def ReadsFormula (e : Formula Token) : Level → Prop
  | .factor => ∀ (l : Line) (rest : List Token), l.tokens = e.symbols ++ rest →
      forget l.factor = do return (← e.value, l.withTokens rest)
  | .product => ∀ (l : Line) (rest : List Token), l.tokens = e.symbols ++ rest →
      forget l.product = do forget ((l.withTokens rest).moreFactors (← e.value))
  | .sum => ∀ (l : Line) (rest : List Token), l.tokens = e.symbols ++ rest →
      (∀ t ∈ rest.head?, t.kind ≠ .star ∧ t.kind ≠ .slash) →
      forget l.expression = do forget ((l.withTokens rest).moreProducts (← e.value))

theorem readsFormula_number (ht : t.kind = .number) : ReadsFormula (.number t) .factor := by
  intro l rest hl
  rw [forget_factor_cons hl, ht]
  rfl

/-- A sum in parentheses is a factor. -/
theorem readsFormula_group {left right : Token} (hleft : left.kind = .leftParen)
    (he : ReadsFormula e .sum) (hright : right.kind = .rightParen) :
    ReadsFormula (.group left e right) .factor := by
  intro l rest hl
  have hl' : l.tokens = left :: (e.symbols ++ right :: rest) := by simpa [symbols] using hl
  -- The closing parenthesis ends the sum.
  have hstop : ∀ t ∈ (right :: rest).head?, t.kind ≠ .star ∧ t.kind ≠ .slash := by
    rintro t ⟨⟩
    simp [hright]
  have hclosed (a : Decimal) :
      forget (((l.withTokens (e.symbols ++ right :: rest)).withTokens (right :: rest)).moreProducts
        a) = pure (a, l.withTokens (right :: rest)) :=
    forget_moreProducts_of_ne (by rintro t ⟨⟩; simp [hright]) a
  have hclosing (a : Decimal) : closing (a, l.withTokens (right :: rest)) =
      pure (a, l.withTokens rest) := by
    simp [closing, token, withTokens, hright]
  rw [forget_factor_cons hl', hleft]
  simp only [he (l.withTokens (e.symbols ++ right :: rest)) (right :: rest) rfl hstop, hclosed,
    bind_assoc, pure_bind, hclosing]
  rfl

/-- Signs in front of a factor are read from the outside in. -/
theorem readsFormula_signed (ht : t.kind = .plus ∨ t.kind = .minus)
    (he : ReadsFormula e .factor) : ReadsFormula (.signed t e) .factor := by
  intro l rest hl
  have hl' : l.tokens = t :: (e.symbols ++ rest) := by simpa [symbols] using hl
  have hread := he (l.withTokens (e.symbols ++ rest)) rest rfl
  rw [forget_factor_cons hl']
  obtain ht | ht := ht
  · simp only [ht, hread, Formula.value, bind_assoc, pure_bind, reduceCtorEq, if_false]
    rfl
  · simp only [ht, hread, Formula.value, bind_assoc, pure_bind, if_true]
    rfl

theorem readsFormula_ofFactor (he : ReadsFormula e .factor) : ReadsFormula e .product := by
  intro l rest hl
  rw [forget_product, he l rest hl]
  simp only [bind_assoc, pure_bind]

/-- A product grows to the right, and is worked out from the left. -/
theorem readsFormula_product (he : ReadsFormula e .product)
    (ht : t.kind = .star ∨ t.kind = .slash) (hf : ReadsFormula f .factor) :
    ReadsFormula (.binary e t f) .product := by
  intro l rest hl
  have hl' : l.tokens = e.symbols ++ t :: (f.symbols ++ rest) := by simpa [symbols] using hl
  have hnext := moreFactors_takes.goesOn (l := l.withTokens (t :: (f.symbols ++ rest))) rfl
    (decide_eq_true ht)
  rw [he l _ hl']
  simp only [hnext, withTokens_withTokens, hf (l.withTokens (f.symbols ++ rest)) rest rfl,
    Formula.value, bind_assoc, pure_bind]

theorem readsFormula_ofProduct (he : ReadsFormula e .product) : ReadsFormula e .sum := by
  intro l rest hl hrest
  rw [forget_expression, he l rest hl]
  simp only [bind_assoc, forget_moreFactors_of_ne (l := l.withTokens rest) hrest, pure_bind]

/-- So does a sum. -/
theorem readsFormula_sum (he : ReadsFormula e .sum) (ht : t.kind = .plus ∨ t.kind = .minus)
    (hf : ReadsFormula f .product) : ReadsFormula (.binary e t f) .sum := by
  intro l rest hl hrest
  have hl' : l.tokens = e.symbols ++ t :: (f.symbols ++ rest) := by simpa [symbols] using hl
  have hstop : ∀ u ∈ (t :: (f.symbols ++ rest)).head?, u.kind ≠ .star ∧ u.kind ≠ .slash := by
    rintro u ⟨⟩
    obtain ht | ht := ht <;> simp [ht]
  have hnext := moreProducts_takes.goesOn (l := l.withTokens (t :: (f.symbols ++ rest))) rfl
    (decide_eq_true ht)
  rw [he l _ hl' hstop]
  simp only [hnext, withTokens_withTokens, hf (l.withTokens (f.symbols ++ rest)) rest rfl,
    forget_moreFactors_of_ne (l := l.withTokens rest) hrest, Formula.value, bind_assoc, pure_bind]

/-- Reading follows the grammar. -/
theorem readsFormula_of_fits {level : Level} (h : e.Fits Token.kind level) :
    ReadsFormula e level := by
  induction h with
  | number ha => exact readsFormula_number ha
  | group hleft _ hright ihe => exact readsFormula_group hleft ihe hright
  | signed hsign _ ihe => exact readsFormula_signed hsign ihe
  | ofFactor _ ihe => exact readsFormula_ofFactor ihe
  | product _ hsign _ ihe ihf => exact readsFormula_product ihe hsign ihf
  | ofProduct _ ihe => exact readsFormula_ofProduct ihe
  | sum _ hsign _ ihe ihf => exact readsFormula_sum ihe hsign ihf

/-- In front of what is no sign, the tokens of a sum come to its value, and what follows is left. -/
theorem forget_expression_of_fits (he : e.Fits Token.kind .sum) (hl : l.tokens = e.symbols ++ rest)
    (hrest : ∀ t ∈ rest.head?, t.kind ∉ operators) :
    forget l.expression = do return (← e.value, l.withTokens rest) := by
  have hends : ∀ t ∈ rest.head?, (t.kind ≠ .plus ∧ t.kind ≠ .minus) ∧
      t.kind ≠ .star ∧ t.kind ≠ .slash := by
    intro t ht
    simpa [operators, and_assoc] using hrest t ht
  rw [readsFormula_of_fits he l rest hl fun t ht => (hends t ht).2]
  simp only [forget_moreProducts_of_ne (l := l.withTokens rest) fun t ht => (hends t ht).1]

/-- What reading gives, or with which error it ends, where it is forgotten how long the rest is. -/
theorem value?_run_forget {α : Type} {n : Nat} (x : Reading (α × Shorter n)) :
    (forget x).run.value? = x.run.value?.map (Except.map fun p => (p.1, p.2.val)) := by
  rw [forget, ExceptT.run_map, map_eq_pure_bind, Checked.value?_bind, Option.map_eq_bind]
  rfl

/-- An expression has the value of the formula that its tokens lay out, and ends where they do; or
it has an error at the first division without a result. -/
theorem expression_formula (he : e.Fits Token.kind .sum)
    (hnumbers : ∀ t ∈ e.literals, ∃ a, numberValue t = pure a) (hfits : ¬e.Overflows)
    (hl : l.tokens = e.symbols ++ rest) (hrest : ∀ t ∈ rest.head?, t.kind ∉ operators) :
    (∃ a l', e.Gives a ∧ l.expression.run.value? = some (.ok (a, l')) ∧
      l'.val = l.withTokens rest) ∨
    ∃ slash, e.Fails slash ∧
      l.expression.run.value? = some (.error ⟨.noQuotient, slash.span⟩) := by
  have hread : l.expression.run.value?.map (Except.map fun p => (p.1, p.2.val)) =
      (do return (← e.value, l.withTokens rest) : Reading (Decimal × Line)).run.value? := by
    rw [← value?_run_forget, forget_expression_of_fits he hl hrest]
  rw [Checked.SameOutcome.value?_run_bind] at hread
  obtain ⟨hgives, hfails⟩ := Checked.Ends.iff.1 (isDecided_of_fits he hnumbers)
  cases hrun : e.value.run.value? with
  | none =>
    cases hvalue : e.value.run with
    | error failure => exact absurd (hfails failure hvalue) hfits
    | _ outcome => rw [hvalue] at hrun; cases hrun
  | some outcome =>
    rw [hrun, Option.bind_some] at hread
    have houtcome := hgives outcome hrun
    cases outcome with
    | ok a =>
      refine .inl ⟨a, ?_⟩
      obtain ⟨result, hresult, hread⟩ := Option.map_eq_some_iff.1 hread
      cases result with
      | error error => cases hread
      | ok p =>
        obtain ⟨rfl, hrest⟩ := Prod.mk.inj (Except.ok.inj hread)
        exact ⟨p.2, houtcome, hresult, hrest⟩
    | error error =>
      obtain ⟨slash, hslash, rfl⟩ := houtcome
      refine .inr ⟨slash, hslash, ?_⟩
      obtain ⟨result, hresult, hread⟩ := Option.map_eq_some_iff.1 hread
      cases result with
      | ok p => cases hread
      | error error => rw [hresult, Except.error.inj hread]

/-- An expression with all signs, in which a product of a sum is taken away. -/
def settlementText : String := "1,000 - (10 + 2) * - 3 / 4 USD"

/-- Its formula. -/
def settlement : Formula Token :=
  let literal (start : Nat) (text : String) : Formula Token :=
    .number ⟨.number, ⟨start, start + text.length⟩, 1, text⟩
  let sign (kind : Token.Kind) (start : Nat) (text : String) : Token :=
    ⟨kind, ⟨start, start + 1⟩, 1, text⟩
  let sum : Formula Token := .binary (literal 9 "10") (sign .plus 12 "+") (literal 14 "2")
  let debt : Formula Token := .binary
    (.binary (.group (sign .leftParen 8 "(") sum (sign .rightParen 15 ")")) (sign .star 17 "*")
      (.signed (sign .minus 19 "-") (literal 21 "3")))
    (sign .slash 23 "/") (literal 25 "4")
  .binary (literal 0 "1,000") (sign .minus 6 "-") debt

theorem settlement_fits : settlement.Fits Token.kind .sum := by
  refine .sum (.ofProduct (.ofFactor (.number rfl))) (.inr rfl)
    (.product ?_ (.inr rfl) (.number rfl))
  refine .product (.ofFactor (.group rfl ?_ rfl)) (.inl rfl) (.signed (.inr rfl) (.number rfl))
  exact .sum (.ofProduct (.ofFactor (.number rfl))) (.inl rfl) (.ofFactor (.number rfl))

/-- The line of the text. -/
def settlementLine : Line where
  indent := none
  tokens := Token.scan settlementText
  ending := .empty 30

theorem expression_formula_settlement :
    ∃ currency, settlementLine.tokens = settlement.symbols ++ [currency] ∧
      settlement.Gives (.written "1009") ∧
      ((∃ a l', settlement.Gives a ∧ settlementLine.expression.run.value? = some (.ok (a, l')) ∧
          l'.val = settlementLine.withTokens [currency]) ∨
        ∃ slash, settlement.Fails slash ∧
          settlementLine.expression.run.value? = some (.error ⟨.noQuotient, slash.span⟩)) := by
  have hgives : settlement.Gives (.written "1009") := by
    rw [Gives]
    decide +kernel
  have hnumbers : ∀ t ∈ settlement.literals, ∃ a, numberValue t = pure a := by
    have hread : ∀ t ∈ settlement.literals,
        (Decimal.ofChars? (t.text.toList.filter (· ≠ ','))).isSome := by decide +kernel
    intro t ht
    obtain ⟨a, ha⟩ := Option.isSome_iff_exists.1 (hread t ht)
    exact ⟨a, by rw [numberValue, ha]⟩
  have htokens : settlementLine.tokens =
      settlement.symbols ++ [⟨.currency, ⟨27, 30⟩, 1, "USD"⟩] := by
    decide +kernel
  refine ⟨_, htokens, hgives, ?_⟩
  refine expression_formula settlement_fits hnumbers (not_overflows_of_gives hgives) htokens ?_
  rintro t ⟨⟩
  decide

end Line

end DoubleEntry
