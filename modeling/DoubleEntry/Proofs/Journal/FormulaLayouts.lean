import DoubleEntry.Proofs.Journal.CutFormulas
import DoubleEntry.Proofs.Journal.FormulaTexts
import DoubleEntry.Proofs.Journal.TransactionTexts

/-!
# Postings with and without blanks

What a posting, an assertion or a price comes to depends on whether there are blanks around the
operators of its formulas.

* `PostingForm.IsWritten.inOneLine`: the words of a posting stand on one line.
* `Quantity.resultIn`, `Quantity.costIn`: what an amount and a cost come to.
* `PostingForm.resultIn`, `PostingForm.ok?_posting_of_wordsIn`: what a posting comes to, and that
  reading its words does.
* `PostingForm.map_readBack_resultOf`: the signs of zeros can be left out before or after.
-/

namespace DoubleEntry

open Token

/-! ## Words on one line -/

/-- The word is inside a line, and so are all of its characters. -/
def InOneLine (w : Word) : Prop := w.1 ≠ .newline ∧ w.1 ≠ .indent ∧ '\n' ∉ w.2

instance (w : Word) : Decidable (InOneLine w) :=
  inferInstanceAs (Decidable (w.1 ≠ .newline ∧ w.1 ≠ .indent ∧ '\n' ∉ w.2))

theorem newlines_eq_zero {ws : List Word} (h : ∀ w ∈ ws, InOneLine w) : newlines ws = 0 :=
  List.sum_eq_zero fun n hn => by
    obtain ⟨w, hw, rfl⟩ := List.mem_map.1 hn
    exact List.count_eq_zero.2 (h w hw).2.2

theorem lineFeed_not_mem_of_isAccount {cs : List Char} (h : IsAccount cs) : '\n' ∉ cs := by
  obtain ⟨root, hroot, c, rest, rfl, hc, hrest⟩ := h
  have hroot := notMem_of_mem_accountRoots (.inl rfl) hroot
  have hc : c ≠ '\n' := by
    rintro rfl
    rw [startsComponent_lineEnd (.inl rfl)] at hc
    cases hc
  have hrest : '\n' ∉ rest := by
    intro hmem
    obtain ⟨before, after, rfl⟩ := List.append_of_mem hmem
    have hle := accountRest_le before
    rw [accountRest_lineEnd (.inl rfl)] at hrest
    rw [hrest, List.length_append, List.length_cons] at hle
    omega
  simp [hroot, Ne.symm hc, hrest]

theorem lineFeed_not_mem_of_isCurrency {cs : List Char} (h : IsCurrency cs) : '\n' ∉ cs := by
  obtain ⟨c, rest, rfl, -, hupper, -, hrest, -⟩ := h
  have hc : c ≠ '\n' := by
    rintro rfl
    cases hupper
  have hrest : '\n' ∉ rest := fun hmem => absurd (hrest _ hmem) (by decide)
  simp [Ne.symm hc, hrest]

theorem IsSymbol.inOneLine {w : Word} (h : IsSymbol w) : InOneLine w := by
  obtain ⟨hkind, digits, hcs, hdigits, -⟩ | hsign := h
  · have hnot : '\n' ∉ digits := fun hmem => absurd (hdigits _ hmem) (by decide)
    refine ⟨by simp [hkind], by simp [hkind], ?_⟩
    obtain hcs | hcs := hcs <;> simp [hcs, hnot]
  · exact (by decide : ∀ v ∈ signWords, v.1 ≠ .newline ∧ v.1 ≠ .indent ∧ '\n' ∉ v.2) w hsign

theorem forall_mem_joined {P : Word → Prop}
    (hP : ∀ w, P w → isUnsignedWord w → P (.number, '-' :: w.2)) {symbols ws : List Word}
    (hsymbols : ∀ w ∈ symbols, P w) (hws : ∀ w ∈ ws, P w) : ∀ w ∈ joined symbols ws, P w := by
  induction symbols with
  | nil => exact hws
  | cons w symbols ih =>
    obtain ⟨hw, hsymbols⟩ := List.forall_mem_cons.1 hsymbols
    have hrest := ih hsymbols
    rw [joined_cons]
    cases hcons : joined symbols ws with
    | nil => exact List.forall_mem_singleton.2 hw
    | cons v rest =>
      rw [hcons] at hrest
      obtain ⟨hv, hrest'⟩ := List.forall_mem_cons.1 hrest
      rw [joinWord]
      split
      · next hjoin => exact List.forall_mem_cons.2 ⟨hP v hv hjoin.2, hrest'⟩
      · exact List.forall_mem_cons.2 ⟨hw, hrest⟩

theorem Quantity.IsWritten.inOneLine {q : Quantity} (h : q.IsWritten) (layout : Layout) :
    ∀ w ∈ q.wordsIn layout, InOneLine w := by
  have hsymbols : ∀ w ∈ q.formula.symbols, InOneLine w := fun w hw => (h.symbols w hw).inOneLine
  have hcurrency : ∀ w ∈ [((.currency, q.currency.toList) : Word)], InOneLine w :=
    List.forall_mem_singleton.2 ⟨by simp, by simp, lineFeed_not_mem_of_isCurrency h.currency⟩
  cases layout with
  | tight =>
    refine forall_mem_joined (fun w hw _ => ⟨by simp, by simp, ?_⟩) hsymbols hcurrency
    simpa using hw.2.2
  | spaced => exact List.forall_mem_append.2 ⟨hsymbols, hcurrency⟩

theorem PostingForm.IsWritten.inOneLine {p : PostingForm} (h : p.IsWritten) (layout : Layout) :
    ∀ w ∈ p.wordsIn layout, InOneLine w := by
  obtain ⟨hunits, hcost, hprice⟩ := forall_mem_quantities.1 h.quantities
  have helim {α : Type} {o : Option α} {words : α → List Word}
      (h : ∀ a ∈ o, ∀ w ∈ words a, InOneLine w) : ∀ w ∈ o.elim [] words, InOneLine w := by
    cases o with
    | none => exact List.forall_mem_nil _
    | some a => exact h a rfl
  refine List.forall_mem_cons.2 ⟨⟨by simp, by simp, lineFeed_not_mem_of_isAccount h.account⟩, ?_⟩
  refine List.forall_mem_append.2 ⟨helim fun q hq => (hunits q hq).inOneLine layout,
    List.forall_mem_append.2 ⟨helim fun c hc => ?_, helim fun c hc => ?_⟩⟩
  · have hinside := (hcost c hc).inOneLine layout
    rw [Line.costWords]
    split
    · exact List.forall_mem_cons.2 ⟨by decide,
        List.forall_mem_append.2 ⟨hinside, List.forall_mem_singleton.2 (by decide)⟩⟩
    · exact List.forall_mem_cons.2 ⟨by decide,
        List.forall_mem_append.2 ⟨hinside, List.forall_mem_singleton.2 (by decide)⟩⟩
  · refine List.forall_mem_cons.2 ⟨?_, (hprice c hc).inOneLine layout⟩
    split <;> decide

/-! ## What a layout comes to -/

namespace Quantity

/-- The quantity whose numbers have taken their signs along. -/
def join (q : Quantity) : Quantity := ⟨q.formula.join, q.currency⟩

/-- What an amount or a price comes to. -/
def resultIn (layout : Layout) (q : Quantity) : Option Amount :=
  match layout with
  | .tight => q.formula.tight?.map fun n => ⟨n, q.currency⟩
  | .spaced => q.result?

/-- What a cost comes to. -/
def costIn (layout : Layout) (q : Quantity) : Option Amount :=
  match layout with
  | .tight => q.kept?
  | .spaced => q.result?

variable {q : Quantity}

theorem wordsIn_tight (hq : q.Fits) (h : ¬q.formula.Joins) : q.wordsIn .tight = q.join.words :=
  Formula.joined_symbols hq h _

theorem stopsShort_append (hq : q.Fits) (h : q.formula.Joins) (ws : List Word) :
    Line.StopsShort (q.wordsIn .tight ++ ws) := by
  rw [wordsIn, Layout.words_append]
  exact Formula.stopsShort_of_joins hq h _

theorem stopsShort_wordsIn (hq : q.Fits) (h : q.formula.Joins) :
    Line.StopsShort (q.wordsIn .tight) := Formula.stopsShort_of_joins hq h _

theorem resultIn_of_joins (h : q.formula.Joins) : q.resultIn .tight = none := by
  rw [resultIn, Formula.tight?, if_pos h]
  rfl

theorem resultIn_of_not_joins (h : ¬q.formula.Joins) : q.resultIn .tight = q.join.result? := by
  rw [resultIn, Formula.tight?, if_neg h]
  rfl

theorem costIn_of_not_joins (h : ¬q.formula.Joins) : q.costIn .tight = q.resultIn .tight := by
  rw [costIn, kept?, Formula.cut_of_not_joins h]
  rfl

/-- Where no sign of a difference takes a number along, an amount does not change but for the sign
of a zero. -/
theorem map_readBack_resultIn (hq : q.Fits) (h : ¬q.formula.Joins) :
    (q.resultIn .tight).map Amount.readBack = (q.resultIn .spaced).map Amount.readBack := by
  have hresult (q : Quantity) : q.result?.map Amount.readBack =
      (q.formula.result?.map Decimal.readBack).map fun n => ⟨n, q.currency⟩ := by
    rw [result?, Option.map_map, Option.map_map]
    rfl
  rw [resultIn_of_not_joins h, resultIn, hresult, hresult, join,
    Formula.map_readBack_result?_join hq]

/-- It does not change at all where no sign of a number takes it along either. -/
theorem resultIn_eq_of_join_eq (h : ¬q.formula.Joins) (hsame : q.formula.join = q.formula) :
    q.resultIn .tight = q.resultIn .spaced := by
  rw [resultIn_of_not_joins h, join, hsame]
  rfl

end Quantity

/-! ## Postings -/

/-- A part of a posting that may be missing, with something else in its place. -/
theorem elim_map_congr {α β : Type} {o : Option α} {g : α → α} {b : β} {f f' : α → β}
    (h : ∀ a ∈ o, f a = f' (g a)) : o.elim b f = (o.map g).elim b f' := by
  cases o with
  | none => rfl
  | some a => exact h a rfl

/-- What such a part comes to, without the sign of a zero. -/
theorem map_readBack_elim {α β : Type} (o : Option α) (result : α → Option Amount)
    (make : α → Amount → β) (readBack : β → β)
    (hmake : ∀ a n, readBack (make a n) = make a n.readBack) :
    (o.elim (some none) fun a => (result a).map (some ∘ make a)).map (Option.map readBack) =
      o.elim (some none) fun a => ((result a).map Amount.readBack).map (some ∘ make a) := by
  cases o with
  | none => rfl
  | some a => simp [Function.comp_def, hmake]

theorem readBack_costOf (double : Bool) (a : Amount) :
    (Line.costOf double a).readBack = Line.costOf double a.readBack := by
  cases double <;> rfl

theorem readBack_priceOf (double : Bool) (a : Amount) :
    (Line.priceOf double a).readBack = Line.priceOf double a.readBack := by
  cases double <;> rfl

namespace PostingForm

variable {p : PostingForm} {l : Line} {amount cost amount' cost' : Quantity → Option Amount}

theorem resultOf_congr (h : ∀ q ∈ p.quantities, amount q = amount' q ∧ cost q = cost' q) (n : Nat) :
    p.resultOf amount cost n = p.resultOf amount' cost' n := by
  obtain ⟨hunits, hcost, hprice⟩ := forall_mem_quantities.1 h
  have hcongr {α β : Type} {o : Option α} {b : β} {f f' : α → β} (h : ∀ a ∈ o, f a = f' a) :
      o.elim b f = o.elim b f' := by
    have hmap := elim_map_congr (b := b) (g := id) h
    rwa [Option.map_id, id] at hmap
  have hunit : (p.units.elim (some none) fun q => (amount q).map (some ∘ Units.complete)) =
      p.units.elim (some none) fun q => (amount' q).map (some ∘ Units.complete) :=
    hcongr fun q hq => by rw [(hunits q hq).1]
  have hcosts : (p.cost.elim (some none) fun c => (cost c.2).map (some ∘ Line.costOf c.1)) =
      p.cost.elim (some none) fun c => (cost' c.2).map (some ∘ Line.costOf c.1) :=
    hcongr fun c hc => by rw [(hcost c hc).2]
  have hprices : (p.price.elim (some none) fun c => (amount c.2).map (some ∘ Line.priceOf c.1)) =
      p.price.elim (some none) fun c => (amount' c.2).map (some ∘ Line.priceOf c.1) :=
    hcongr fun c hc => by rw [(hprice c hc).1]
  rw [resultOf, resultOf, hunit, hcosts, hprices]

/-- The signs of zeros can be left out before or after. -/
theorem map_readBack_resultOf (amount cost : Quantity → Option Amount) (p : PostingForm) (n : Nat) :
    (p.resultOf amount cost n).map (fun p => p.readBack p.metadata) =
      p.resultOf (fun q => (amount q).map Amount.readBack) (fun q => (cost q).map Amount.readBack)
        n := by
  have hunits := map_readBack_elim p.units amount (fun _ => Units.complete) Units.readBack
    fun _ _ => rfl
  have hcost := map_readBack_elim p.cost (fun c => cost c.2) (fun c => Line.costOf c.1)
    Cost.readBack fun c => readBack_costOf c.1
  have hprice := map_readBack_elim p.price (fun c => amount c.2) (fun c => Line.priceOf c.1)
    Price.readBack fun c => readBack_priceOf c.1
  rw [resultOf, resultOf, ← hunits, ← hcost, ← hprice]
  simp only [Option.bind_eq_bind, Option.map_bind, Option.bind_map, Function.comp_def]
  rfl

/-- What the posting comes to on a line. -/
def resultIn (layout : Layout) (p : PostingForm) (line : Nat) : Option Posting :=
  p.resultOf (Quantity.resultIn layout) (Quantity.costIn layout) line

/-- An amount or a price of the posting falls apart. -/
def Stops (p : PostingForm) : Prop :=
  (∃ q ∈ p.units, q.formula.Joins) ∨ ∃ c ∈ p.price, c.2.formula.Joins

theorem resultIn_of_stops (h : p.Stops) (n : Nat) : p.resultIn .tight n = none := by
  obtain ⟨account, units, cost, price⟩ := p
  obtain ⟨q, rfl, hq⟩ | ⟨c, rfl, hc⟩ := h
  · simp [resultIn, resultOf, Quantity.resultIn_of_joins hq]
  · simp [resultIn, resultOf, Quantity.resultIn_of_joins hc]

/-- An amount that does not fall apart has the words and the result of the one whose numbers have
taken their signs along. -/
theorem joined_units {units : Option Quantity} (hunits : ∀ q ∈ units, q.Fits)
    (hwhole : ∀ q ∈ units, ¬q.formula.Joins) :
    (∀ q ∈ units.map Quantity.join, q.Fits) ∧
      units.elim [] (Quantity.wordsIn .tight) = (units.map Quantity.join).elim [] Quantity.words ∧
      (units.elim (some none) fun q => (q.resultIn .tight).map (some ∘ Units.complete)) =
        (units.map Quantity.join).elim (some none) fun q => q.result?.map (some ∘ .complete) := by
  refine ⟨fun q hq => ?_, elim_map_congr fun q hq => ?_, elim_map_congr fun q hq => ?_⟩
  · obtain ⟨q', hq', rfl⟩ := Option.map_eq_some_iff.1 hq
    exact Formula.Fits.join (hunits q' hq')
  · exact Quantity.wordsIn_tight (hunits q hq) (hwhole q hq)
  · rw [Quantity.resultIn_of_not_joins (hwhole q hq)]

/-- So does a price. -/
theorem joined_price {price : Option (Bool × Quantity)} (hprice : ∀ c ∈ price, c.2.Fits)
    (hwhole : ∀ c ∈ price, ¬c.2.formula.Joins) :
    (∀ c ∈ price.map (Prod.map id Quantity.join), c.2.Fits) ∧
      (price.elim [] fun c => Line.priceWords c.1 (c.2.wordsIn .tight)) =
        ((price.map (Prod.map id Quantity.join)).elim [] fun c => Line.priceWords c.1 c.2.words) ∧
      (price.elim (some none) fun c => (c.2.resultIn .tight).map (some ∘ Line.priceOf c.1)) =
        (price.map (Prod.map id Quantity.join)).elim (some none) fun c =>
          c.2.result?.map (some ∘ Line.priceOf c.1) := by
  refine ⟨fun c hc => ?_, elim_map_congr fun c hc => ?_, elim_map_congr fun c hc => ?_⟩
  · obtain ⟨c', hc', rfl⟩ := Option.map_eq_some_iff.1 hc
    exact Formula.Fits.join (hprice c' hc')
  · rw [Quantity.wordsIn_tight (hprice c hc) (hwhole c hc)]
    rfl
  · rw [Quantity.resultIn_of_not_joins (hwhole c hc)]
    rfl

/-- A posting without blanks. -/
theorem ok?_posting_tight (hp : ∀ q ∈ p.quantities, q.Fits) (hl : l.words = p.wordsIn .tight) :
    l.posting.ok? = p.resultIn .tight l.number := by
  obtain ⟨hunits, hcost, hprice⟩ := forall_mem_quantities.1 hp
  obtain ⟨account, units, cost, price⟩ := p
  by_cases hjoins : ∃ q ∈ units, q.formula.Joins
  · rw [resultIn_of_stops (.inl hjoins)]
    obtain ⟨q, rfl, hq⟩ := hjoins
    exact Line.ok?_posting_of_stopsShort (Quantity.stopsShort_append (hunits q rfl) hq _) hl
  obtain ⟨hunitsFit, hunitWords, hunitResult⟩ :=
    joined_units hunits fun q hq h => hjoins ⟨q, hq, h⟩
  have hcostReads : ∀ c ∈ cost, Line.ReadsInside c.1 (c.2.wordsIn .tight) (c.2.costIn .tight) :=
    fun c hc => Line.readsInside_joined (hcost c hc) c.1
  have hl : l.words = (.account, account.toList) ::
      ((units.map Quantity.join).elim [] Quantity.words ++
        ((cost.elim [] fun c => Line.costWords c.1 (c.2.wordsIn .tight)) ++
          price.elim [] fun c => Line.priceWords c.1 (c.2.wordsIn .tight))) := by
    rw [hl, wordsIn, wordsOf, hunitWords]
  by_cases hjoins : ∃ c ∈ price, c.2.formula.Joins
  · rw [resultIn_of_stops (.inr hjoins)]
    obtain ⟨⟨double, q⟩, rfl, hq⟩ := hjoins
    refine Line.ok?_posting_of_price_stopsShort hunitsFit hcostReads ?_
      (Quantity.stopsShort_wordsIn (hprice _ rfl) hq) hl
    cases double <;> simp
  obtain ⟨hpriceFit, hpriceWords, hpriceResult⟩ :=
    joined_price hprice fun c hc h => hjoins ⟨c, hc, h⟩
  obtain ⟨l₁, hl₁, hposting⟩ := Line.ok?_posting_of_words_before hunitsFit hcostReads
    (startsPrice (Quantity.wordsIn .tight) ⟨account, units, cost, price⟩) hl
  obtain ⟨l₂, hl₂, hread⟩ := Line.ok?_price?_of_words hpriceFit (hl₁.trans hpriceWords)
  rw [hposting, hread, resultIn, resultOf, hunitResult, hpriceResult]
  simp only [Option.bind_eq_bind, Option.bind_map, Function.comp_def, Line.finish_of_words hl₂,
    Reading.ok?_pure, Option.bind_some]

/-- The words of a posting come to its result. -/
theorem ok?_posting_of_wordsIn {layout : Layout} (hp : ∀ q ∈ p.quantities, q.Fits)
    (hl : l.words = p.wordsIn layout) : l.posting.ok? = p.resultIn layout l.number := by
  cases layout with
  | tight => exact ok?_posting_tight hp hl
  | spaced => exact Line.ok?_posting_of_words hp hl

end PostingForm

/-! ## Balance and price directives -/

namespace Line

variable {l : Line} {q : Quantity} {place : Span}

/-- What is read from a word and a quantity: what the quantity comes to, unless it stops short. -/
theorem ok?_of_wordsIn {α : Type} {r : Reading α} {make : Amount → α} {w : Word} {layout : Layout}
    (hq : q.Fits)
    (hwords : ∀ q' : Quantity, q'.Fits → l.words = w :: q'.words → r.ok? = q'.result?.map make)
    (hstops : ∀ ws, StopsShort ws → l.words = w :: ws → r.ok? = none)
    (hl : l.words = w :: q.wordsIn layout) : r.ok? = (q.resultIn layout).map make := by
  cases layout with
  | spaced => exact hwords q hq hl
  | tight =>
    by_cases hjoins : q.formula.Joins
    · rw [Quantity.resultIn_of_joins hjoins]
      exact hstops _ (Quantity.stopsShort_wordsIn hq hjoins) hl
    · rw [Quantity.wordsIn_tight hq hjoins] at hl
      rw [Quantity.resultIn_of_not_joins hjoins]
      exact hwords q.join (Formula.Fits.join hq) hl

theorem ok?_balance_of_wordsIn {account : Account} {layout : Layout} (hq : q.Fits)
    (hl : l.words = (.account, account.toList) :: q.wordsIn layout) :
    (l.wholeStatement .balance place).ok? =
      (q.resultIn layout).map fun a => .balance ⟨account, a, none⟩ :=
  ok?_of_wordsIn hq (fun _ => ok?_balance_of_words) (fun _ => ok?_balance_of_stopsShort) hl

theorem ok?_price_of_wordsIn {c : Currency} {layout : Layout} (hq : q.Fits)
    (hl : l.words = (.currency, c.toList) :: q.wordsIn layout) :
    (l.wholeStatement .price place).ok? = (q.resultIn layout).map (.price c) :=
  ok?_of_wordsIn hq (fun _ => ok?_price_of_words) (fun _ => ok?_price_of_stopsShort) hl

end Line

end DoubleEntry
