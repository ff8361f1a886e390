import DoubleEntry.Proofs.Journal.JoinedSigns

/-!
# Formulas that fall into several

Without blanks a difference whose sign takes a number along ends one formula and begins another one.
An amount or a price is not read then. A cost takes one number after the other, and keeps the last.

* `Formula.cut`: the formulas that a formula falls into, the last one apart.
* `Formula.joined_cut`: they have its words. `Formula.Fits.cut`: they are formulas in which no sign
  takes a number along, except in parentheses.
* `Formula.tight?`: what a formula that does not fall apart comes to without blanks.
* `Quantity.kept?`: what a cost comes to. `Line.readsInside_joined`: so does reading it.
-/

namespace DoubleEntry

namespace Formula

/-! ## Cutting a formula -/

/-- The formula whose first number has taken a minus sign along. -/
def signFirst : Formula Word → Formula Word
  | number w => number (.number, '-' :: w.2)
  | binary e sign f => binary e.signFirst sign f
  | e => e

/-- The formulas that one falls into without blanks, all but the last one and then that. -/
def cut : Formula Word → List (Formula Word) × Formula Word
  | binary e sign f =>
    if TakesSign sign f then (e.cut.1 ++ [e.cut.2], f.signFirst)
    else (e.cut.1, binary e.cut.2 sign f)
  | e => ([], e)

/-- The formula does not fall apart. -/
def Uncut : Formula Word → Prop
  | binary e sign f => e.Uncut ∧ ¬TakesSign sign f
  | _ => True

/-- The first symbol is a number. -/
def BeginsNumber (e : Formula Word) : Prop :=
  ∃ cs rest, e.symbols = (.number, cs) :: rest

variable {e f : Formula Word} {sign w : Word} {rest ws : List Word} {level : Level}

theorem Fits.symbols_signFirst (he : e.Fits Prod.fst level) (hw : isUnsignedWord w)
    (hsymbols : e.symbols = w :: rest) :
    e.signFirst.symbols = (.number, '-' :: w.2) :: rest := by
  have hnumber := (isUnsignedWord_iff.1 hw).1
  have hbinary {e f : Formula Word} {sign : Word} {level : Level} {rest : List Word}
      (he : e.Fits Prod.fst level)
      (ih : ∀ {rest}, e.symbols = w :: rest →
        e.signFirst.symbols = (.number, '-' :: w.2) :: rest)
      (hsymbols : (binary e sign f).symbols = w :: rest) :
      (binary e sign f).signFirst.symbols = (.number, '-' :: w.2) :: rest := by
    obtain ⟨v, before, hbefore, -⟩ := he.begins
    rw [symbols, hbefore, List.cons_append] at hsymbols
    obtain ⟨rfl, rfl⟩ := List.cons.inj hsymbols
    rw [signFirst, symbols, ih hbefore, List.cons_append]
  induction he generalizing rest with
  | number _ =>
    obtain ⟨rfl, rfl⟩ := List.cons.inj hsymbols
    rfl
  | group hleft _ _ _ =>
    obtain ⟨rfl, -⟩ := List.cons.inj hsymbols
    rw [hnumber] at hleft
    cases hleft
  | signed hsign _ _ =>
    obtain ⟨rfl, -⟩ := List.cons.inj hsymbols
    rw [hnumber] at hsign
    obtain hsign | hsign := hsign <;> cases hsign
  | ofFactor _ ih | ofProduct _ ih => exact ih hsymbols
  | product he _ _ ih _ | sum he _ _ ih _ => exact hbinary he ih hsymbols

theorem Fits.signFirst (he : e.Fits Prod.fst level) : e.signFirst.Fits Prod.fst level := by
  induction he with
  | number _ => exact .number rfl
  | group hleft he hright _ => exact .group hleft he hright
  | signed hsign he _ => exact .signed hsign he
  | ofFactor _ ih => exact .ofFactor ih
  | product _ hsign hf ih _ => exact .product ih hsign hf
  | ofProduct _ ih => exact .ofProduct ih
  | sum _ hsign hf ih _ => exact .sum ih hsign hf

/-- Only sums fall apart. -/
theorem Fits.uncut (he : e.Fits Prod.fst level) (hlevel : level ≠ .sum) : e.Uncut := by
  induction he with
  | number _ | group _ _ _ _ | signed _ _ _ => trivial
  | ofFactor _ ih => exact ih (by simp)
  | product _ hsign _ ih _ =>
    refine ⟨ih (by simp), fun htakes => ?_⟩
    rw [htakes.1] at hsign
    obtain hsign | hsign := hsign <;> cases hsign
  | ofProduct _ _ | sum _ _ _ _ _ => exact absurd rfl hlevel

/-- The words of a formula are those of the formulas that it falls into. -/
theorem joined_cut (he : e.Fits Prod.fst level) (ws : List Word) :
    joined e.symbols ws = joined (e.cut.1.flatMap symbols ++ e.cut.2.symbols) ws := by
  have hbinary {e f : Formula Word} {sign : Word} {level : Level} (hf : f.Fits Prod.fst level)
      (ih : ∀ ws, joined e.symbols ws = joined (e.cut.1.flatMap symbols ++ e.cut.2.symbols) ws)
      (ws : List Word) : joined (binary e sign f).symbols ws =
        joined ((binary e sign f).cut.1.flatMap symbols ++ (binary e sign f).cut.2.symbols) ws := by
    rw [symbols, joined_append, joined_cons, ih, cut]
    split
    · next htakes =>
      obtain ⟨w, rest, hsymbols, hw, hcons⟩ := joinWord_of_takesSign htakes
      have hne : ((.number, '-' :: w.2) : Word).1 ≠ .minus := by simp
      rw [List.flatMap_append, List.flatMap_singleton, joined_append _ f.signFirst.symbols,
        hf.symbols_signFirst hw hsymbols, joined_cons, joinWord_of_ne hne, hcons]
    · rw [symbols, ← List.append_assoc, joined_append _ (sign :: f.symbols), joined_cons]
  induction he generalizing ws with
  | number _ | group _ _ _ _ | signed _ _ _ => rfl
  | ofFactor _ ih | ofProduct _ ih => exact ih ws
  | product _ _ hf ih _ | sum _ _ hf ih _ => exact hbinary hf ih ws

theorem BeginsNumber.binary (h : e.BeginsNumber) : (binary e sign f).BeginsNumber := by
  obtain ⟨cs, rest, hsymbols⟩ := h
  exact ⟨cs, rest ++ sign :: f.symbols, by rw [symbols, hsymbols, List.cons_append]⟩

/-- All but the first of some formulas begin with a number if the last one still does. -/
theorem isChain_last {es : List (Formula Word)} {p q : Formula Word}
    (h : (es ++ [p]).IsChain fun _ p => p.BeginsNumber) (hq : p.BeginsNumber → q.BeginsNumber) :
    (es ++ [q]).IsChain fun _ p => p.BeginsNumber := by
  obtain ⟨hes, -, hlast⟩ := List.isChain_append.1 h
  refine List.isChain_append.2 ⟨hes, List.isChain_singleton _, fun e he r hr => ?_⟩
  obtain rfl := Option.some.inj hr
  exact hq (hlast e he p rfl)

/-- The formulas that one falls into do not fall apart, and all but the first one begin with a
number. -/
theorem Fits.cut (he : e.Fits Prod.fst level) :
    (∀ p ∈ e.cut.1, p.Fits Prod.fst .sum ∧ p.Uncut) ∧
      (e.cut.2.Fits Prod.fst level ∧ e.cut.2.Uncut) ∧
      (e.cut.1 ++ [e.cut.2]).IsChain fun _ p => p.BeginsNumber := by
  induction he with
  | number ha => exact ⟨List.forall_mem_nil _, ⟨.number ha, trivial⟩, List.isChain_singleton _⟩
  | group hleft he hright _ =>
    exact ⟨List.forall_mem_nil _, ⟨.group hleft he hright, trivial⟩, List.isChain_singleton _⟩
  | signed hsign he _ =>
    exact ⟨List.forall_mem_nil _, ⟨.signed hsign he, trivial⟩, List.isChain_singleton _⟩
  | ofFactor _ ih => exact ⟨ih.1, ⟨.ofFactor ih.2.1.1, ih.2.1.2⟩, ih.2.2⟩
  | ofProduct _ ih => exact ⟨ih.1, ⟨.ofProduct ih.2.1.1, ih.2.1.2⟩, ih.2.2⟩
  | product he hsign hf ih _ =>
    obtain ⟨hinit, ⟨hlast, huncut⟩, hchain⟩ := ih
    obtain ⟨-, htakes⟩ := (Fits.product he hsign hf).uncut (by simp)
    rw [Formula.cut, if_neg htakes]
    exact ⟨hinit, ⟨.product hlast hsign hf, huncut, htakes⟩, isChain_last hchain .binary⟩
  | @sum e f sign he hsign hf ih _ =>
    obtain ⟨hinit, ⟨hlast, huncut⟩, hchain⟩ := ih
    rw [Formula.cut]
    split
    · next htakes =>
      obtain ⟨w, rest, hsymbols, hw, -⟩ := joinWord_of_takesSign htakes
      have hbegins : f.signFirst.BeginsNumber := ⟨_, rest, hf.symbols_signFirst hw hsymbols⟩
      refine ⟨List.forall_mem_append.2 ⟨hinit, List.forall_mem_singleton.2 ⟨hlast, huncut⟩⟩,
        ⟨.ofProduct hf.signFirst, hf.signFirst.uncut (by simp)⟩, ?_⟩
      refine List.isChain_append.2 ⟨hchain, List.isChain_singleton _, fun p _ q hq => ?_⟩
      obtain rfl := Option.some.inj hq
      exact hbegins
    · next htakes =>
      exact ⟨hinit, ⟨.sum hlast hsign hf, huncut, htakes⟩, isChain_last hchain .binary⟩

/-- A formula without differences in which a sign takes a number along stays whole. -/
theorem cut_of_not_joins (h : ¬e.Joins) : e.cut = ([], e) := by
  induction e with
  | number _ | group _ _ _ _ | signed _ _ _ => rfl
  | binary e sign f ih _ =>
    obtain ⟨hfirst, -, htakes⟩ : ¬e.Joins ∧ ¬f.Joins ∧ ¬TakesSign sign f := by
      simpa only [Joins, not_or] using h
    rw [cut, if_neg htakes, ih hfirst]

/-! ## Formulas in parentheses -/

open Line

/-- A formula that does not fall apart is not read if one in parentheses in it does. -/
theorem ok?_expression_of_uncut {l : Line} (he : e.Fits Prod.fst level) (hlevel : level = .sum)
    (huncut : e.Uncut) (h : e.Joins) (hl : l.words = joined e.symbols ws) :
    (forget l.expression).ok? = none := by
  induction he generalizing ws with
  | number _ | group _ _ _ _ | signed _ _ _ | ofFactor _ _ | product _ _ _ _ _ => cases hlevel
  | ofProduct he _ =>
    rw [forget_expression, Reading.ok?_bind, stops_of_joins he h _ _ hl]
    rfl
  | @sum e f sign he hsign hf ih _ =>
    obtain ⟨huncut, htakes⟩ := huncut
    by_cases hjoins : e.Joins
    · rw [symbols, joined_append] at hl
      exact ih rfl huncut hjoins hl
    · have hlast : f.Joins := (h.resolve_left hjoins).resolve_right htakes
      exact ok?_expression_of_last hsign he hjoins hf (stops_of_joins hf hlast) htakes hl

/-- What a formula that does not fall apart comes to without blanks. -/
def tight? (e : Formula Word) : Option Decimal := if e.Joins then none else e.join.result?

end Formula

/-! ## Costs -/

/-- What a cost of several numbers comes to: all of them are read, and the last one is kept. -/
def Quantity.kept? (q : Quantity) : Option Amount :=
  (q.formula.cut.1.mapM Formula.tight?).bind fun _ =>
    q.formula.cut.2.tight?.map fun n => ⟨n, q.currency⟩

namespace Line

variable {l : Line} {ws : List Word}

/-- What comes after the first words of a line. -/
theorem exists_rest {before : List Word} (hl : l.words = before ++ ws) :
    ∃ l' : Line, l'.words = ws := by
  obtain ⟨_, rest, -, -, hrest⟩ := List.map_eq_append_iff.1 hl
  exact ⟨l.withTokens rest, hrest⟩

theorem withNumber_withNumber (double : Bool) (cost : Cost) (m n : Decimal) :
    withNumber double (withNumber double cost m) n = withNumber double cost n := by
  cases double <;> rfl

/-- One formula in a cost, in front of what is no sign. -/
theorem ok?_costComponents_of_uncut {e : Formula Word} (he : e.Fits Prod.fst .sum)
    (huncut : e.Uncut) (hl : l.words = joined e.symbols ws)
    (hws : ∀ w ∈ ws.head?, w.1 ∉ operators) (double : Bool) (cost : Cost) :
    (e.tight? = none ∧ (l.costComponents double cost).ok? = none) ∨
      ∃ l' : Line, l'.words = ws ∧ (l.costComponents double cost).ok? =
        e.tight?.bind fun n => (l'.costComponents double (withNumber double cost n)).ok? := by
  have hread := ok?_costComponents_of_starts (Formula.startsExpression_joined he hl) double cost
  by_cases h : e.Joins
  · rw [Formula.ok?_expression_of_uncut he rfl huncut h hl] at hread
    exact .inl ⟨if_pos h, hread⟩
  · have htight : e.tight? = e.join.result? := if_neg h
    rw [Formula.joined_symbols he h] at hl
    obtain ⟨l', hl', hexpression⟩ := ok?_expression_of_words he.join hl hws
    refine .inr ⟨l', hl', ?_⟩
    rw [hread, hexpression, htight, Option.bind_map]
    rfl

/-- The formulas of a cost after one another. -/
theorem ok?_costComponents_of_cut {es : List (Formula Word)} {last : Formula Word} {c : Currency}
    {double : Bool} {closing : Word} (hclosing : closing.1 = closingBrace double)
    (hes : ∀ p ∈ es, p.Fits Prod.fst .sum ∧ p.Uncut) (hlast : last.Fits Prod.fst .sum ∧ last.Uncut)
    (hchain : (es ++ [last]).IsChain fun _ p => p.BeginsNumber)
    (hl : l.words = joined (es.flatMap Formula.symbols ++ last.symbols)
      ((.currency, c.toList) :: closing :: ws)) (cost : Cost) :
    ∃ l' : Line, l'.words = ws ∧ (l.costComponents double cost).ok? =
      (es.mapM Formula.tight?).bind fun _ => last.tight?.map fun n =>
        ({ withNumber double cost n with currency := some c }, l') := by
  -- Where nothing is read there is still a line of what follows.
  obtain ⟨l₀, hl₀⟩ : ∃ l₀ : Line, l₀.words = ws := by
    have hsplit : l.words = joined (es.flatMap Formula.symbols ++ last.symbols)
        [(.currency, c.toList), closing] ++ ws := by
      rw [hl, joined_append_right _ (by simp)]
      rfl
    exact exists_rest hsplit
  induction es generalizing l cost with
  | nil =>
    obtain ⟨hnone, hread⟩ | ⟨l₁, hl₁, hread⟩ :=
      ok?_costComponents_of_uncut hlast.1 hlast.2 hl currency_not_operator double cost
    · exact ⟨l₀, hl₀, by rw [hread, hnone]; rfl⟩
    · obtain ⟨l₂, hl₂, hend⟩ := costComponents_of_end hclosing hl₁
      refine ⟨l₂, hl₂, ?_⟩
      simp only [hread, hend, Reading.ok?_pure]
      cases last.tight? <;> rfl
  | cons e es ih =>
    obtain ⟨he, hes⟩ := List.forall_mem_cons.1 hes
    obtain ⟨hnext, hchain⟩ := List.isChain_cons.1 hchain
    rw [List.flatMap_cons, List.append_assoc, joined_append] at hl
    have hnumber : ∀ w ∈ (joined (es.flatMap Formula.symbols ++ last.symbols)
        ((.currency, c.toList) :: closing :: ws)).head?, w.1 ∉ operators := by
      obtain ⟨cs, rest, hsymbols⟩ : ∃ cs rest,
          es.flatMap Formula.symbols ++ last.symbols = (.number, cs) :: rest := by
        cases es with
        | nil => exact hnext last rfl
        | cons e es =>
          obtain ⟨cs, rest, hsymbols⟩ := hnext e rfl
          exact ⟨cs, rest ++ (es.flatMap Formula.symbols ++ last.symbols), by
            rw [List.flatMap_cons, hsymbols, List.append_assoc, List.cons_append]⟩
      rw [hsymbols, joined_cons, joinWord_of_ne (by simp)]
      rintro w ⟨⟩
      simp [operators]
    rw [List.mapM_cons]
    obtain ⟨hnone, hread⟩ | ⟨l₁, hl₁, hread⟩ :=
      ok?_costComponents_of_uncut he.1 he.2 hl hnumber double cost
    · exact ⟨l₀, hl₀, by rw [hread, hnone]; rfl⟩
    · cases htight : e.tight? with
      | none => exact ⟨l₀, hl₀, by rw [hread, htight]; rfl⟩
      | some n =>
        obtain ⟨l₂, hl₂, hrest⟩ := ih hes hchain hl₁ (withNumber double cost n)
        refine ⟨l₂, hl₂, ?_⟩
        rw [hread, htight, Option.bind_some, hrest]
        simp only [withNumber_withNumber]
        cases es.mapM Formula.tight? <;> rfl

/-- Without blanks a cost comes to the last of the formulas that its formula falls into. -/
theorem readsInside_joined {q : Quantity} (hq : q.Fits) (double : Bool) :
    ReadsInside double (joined q.formula.symbols [(.currency, q.currency.toList)]) q.kept? := by
  intro l closing ws hclosing hl
  obtain ⟨hes, hlast, hchain⟩ := Formula.Fits.cut hq
  rw [joined_append_right _ (by simp), Formula.joined_cut hq] at hl
  obtain ⟨l', hl', hread⟩ := ok?_costComponents_of_cut hclosing hes hlast hchain hl {}
  refine ⟨l', hl', ?_⟩
  rw [hread, Quantity.kept?]
  cases q.formula.cut.1.mapM Formula.tight? with
  | none => rfl
  | some _ => simp only [Option.bind_some, Option.map_map]; rfl

end Line

end DoubleEntry
