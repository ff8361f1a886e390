import Mathlib.Algebra.BigOperators.Ring.List
import DoubleEntry.Proofs.Booking.Unknowns
import DoubleEntry.Proofs.Decimal.Nearest

/-!
# Transactions the other way

With the units of all its postings the other way, a transaction weighs the opposite, but for what
the cost of a posting adds to that of the single units: a sale adds it as the purchase did.

* `Transaction.reversed`: the transaction that undoes another one.
* `Posting.added?`: what the cost of a posting adds to that of the single units.
* `reversed_residual_iff`: when the residuals cancel.
-/

namespace DoubleEntry

/-- The opposite number of units. -/
def Units.reversed : Units → Units
  | complete a => complete a.neg
  | numberOnly n => numberOnly n.neg
  | currencyOnly c => currencyOnly c

/-- The posting with its units the other way, at the cost and price that are written. -/
def Posting.reversed (p : Posting) : Posting := { p with units := p.units.map Units.reversed }

/-- The transaction with the units of all its postings the other way. -/
def Transaction.reversed (t : Transaction) : Transaction :=
  { t with postings := t.postings.map Posting.reversed }

theorem Posting.amount?_reversed (p : Posting) : p.reversed.amount? = p.amount?.map Amount.neg := by
  unfold amount? reversed
  cases p.units with
  | none => rfl
  | some units => cases units <;> rfl

/-- What a cost adds to the cost of the single units. -/
def Cost.added? (cost : Cost) : Option Amount :=
  match cost.currency, cost.perUnit, cost.total with
  | some currency, some _, some total => some ⟨total, currency⟩
  | _, _, _ => none

/-- What the cost of a posting adds to that of its single units. -/
def Posting.added? (p : Posting) : Option Amount := p.amount?.bind fun _ => p.cost.bind Cost.added?

/-- What a posting adds in a currency. -/
def Posting.addedIn (p : Posting) (c : Currency) : ℚ := p.added?.elim 0 (·.inCurrency c)

theorem Posting.addedIn_eq_zero {p : Posting} (h : ∀ a ∈ p.added?, a.isZero) (c : Currency) :
    p.addedIn c = 0 := by
  unfold addedIn
  cases hadded : p.added? with
  | none => rfl
  | some a =>
    have hzero := Decimal.isZero_iff.1 (h a hadded)
    rw [Option.elim_some, Amount.inCurrency, hzero, ite_self]

/-! ## Opposite weights -/

/-- An amount that takes the sign of some units takes the other one if they go the other way. -/
theorem Amount.inCurrency_withSign (units a : Amount) (c : Currency) :
    (if units.number.negative then a.neg else a).inCurrency c +
      (if units.neg.number.negative then a.neg else a).inCurrency c = 0 := by
  have hsign : units.neg.number.negative = !units.number.negative := rfl
  rw [hsign]
  cases units.number.negative <;> simp [inCurrency_neg]

section Weights

variable {cost : Cost} {units : Amount} {p : Posting} {w w' : Option Amount}
  {r r' : Totals} {c : Currency}

/-- A total alone takes the sign of the units. -/
theorem Cost.totalFor?_of_total {total : Decimal} {currency : Currency}
    (hper : cost.perUnit = none) (htotal : cost.total = some total)
    (hcurrency : cost.currency = some currency) : cost.totalFor? units =
      .exact (some (if units.number.negative then Amount.neg ⟨total, currency⟩
        else ⟨total, currency⟩)) := by
  simp only [totalFor?, hper, htotal, hcurrency]
  cases units.number.negative <;> rfl

/-- A weight the other way is the opposite one, but for what is added to both. -/
theorem Cost.totalFor?_neg (h : cost.totalFor? units = .exact w)
    (h' : cost.totalFor? units.neg = .exact w') (c : Currency) :
    w.isSome = w'.isSome ∧ w.elim 0 (·.inCurrency c) + w'.elim 0 (·.inCurrency c) =
      2 * cost.added?.elim 0 (·.inCurrency c) := by
  obtain ⟨perUnit, total, currency, date, label⟩ := cost
  cases currency with
  | none =>
    obtain rfl := Checked.exact.inj h
    obtain rfl := Checked.exact.inj h'
    exact ⟨rfl, by simp [added?]⟩
  | some currency =>
    cases perUnit with
    | some perUnit =>
      obtain ⟨number, rfl, hnumber⟩ := value_totalFor? rfl rfl h
      obtain ⟨number', rfl, hnumber'⟩ := value_totalFor? rfl rfl h'
      rw [Amount.neg, Decimal.value_neg] at hnumber'
      refine ⟨rfl, ?_⟩
      cases total with
      | none =>
        rw [Option.getD_none, Decimal.value_zero] at hnumber hnumber'
        simp only [added?, Option.elim_some, Option.elim_none, Amount.inCurrency]
        split <;> linarith
      | some total =>
        rw [Option.getD_some] at hnumber hnumber'
        simp only [added?, Option.elim_some, Amount.inCurrency]
        split <;> linarith
    | none =>
      cases total with
      | none =>
        obtain rfl := Checked.exact.inj h
        obtain rfl := Checked.exact.inj h'
        exact ⟨rfl, by simp [added?]⟩
      | some total =>
        rw [totalFor?_of_total rfl rfl rfl] at h h'
        obtain rfl := Checked.exact.inj h
        obtain rfl := Checked.exact.inj h'
        refine ⟨rfl, ?_⟩
        simpa [added?] using Amount.inCurrency_withSign units ⟨total, currency⟩ c

theorem Price.convert?_neg {price : Option Price} {a a' : Amount}
    (h : price.elim (.exact units) (·.convert units) = .exact a)
    (h' : price.elim (.exact units.neg) (·.convert units.neg) = .exact a') (c : Currency) :
    a.inCurrency c + a'.inCurrency c = 0 := by
  cases price with
  | none =>
    obtain rfl := Checked.exact.inj h
    obtain rfl := Checked.exact.inj h'
    rw [Amount.inCurrency_neg, add_neg_cancel]
  | some price =>
  cases price with
  | unit one =>
    obtain ⟨number, hnumber, h⟩ := Checked.bind_eq_exact.1 h
    obtain ⟨number', hnumber', h'⟩ := Checked.bind_eq_exact.1 h'
    obtain rfl := Checked.exact.inj h
    obtain rfl := Checked.exact.inj h'
    have hvalue := Decimal.value_mul hnumber
    have hvalue' := Decimal.value_mul hnumber'
    rw [Amount.neg, Decimal.value_neg] at hvalue'
    unfold Amount.inCurrency
    split <;> linarith
  | total all =>
    obtain rfl := Checked.exact.inj h
    obtain rfl := Checked.exact.inj h'
    exact Amount.inCurrency_withSign units all c

/-- A posting with units weighs its cost, or else its units at its price, or else these. -/
theorem Posting.weight?_eq_exact (hunits : p.amount? = some units) :
    p.weight? = .exact w ↔ ∃ total, p.cost.elim (.exact none) (·.totalFor? units) = .exact total ∧
      ((total.isSome ∧ w = total) ∨ (total = none ∧
        ∃ a, p.price.elim (.exact units) (·.convert units) = .exact a ∧ w = some a)) := by
  unfold weight?
  simp only [hunits]
  rw [Checked.bind_eq_exact]
  refine exists_congr fun total => and_congr_right fun _ => ?_
  cases total with
  | some a => simp [eq_comm]
  | none =>
    cases p.price with
    | none => simp [eq_comm]
    | some price =>
      refine Checked.bind_eq_exact.trans ?_
      simp [eq_comm]

/-- The weights of a posting and of the reversed one cancel, but for what is added to both. -/
theorem Posting.weightIn_reversed (h : p.weight? = .exact w) (h' : p.reversed.weight? = .exact w')
    (c : Currency) : p.weightIn c + p.reversed.weightIn c = 2 * p.addedIn c := by
  rw [weightIn_of_exact h, weightIn_of_exact h', addedIn, added?]
  cases hunits : p.amount? with
  | none =>
    have hunits' : p.reversed.amount? = none := by rw [amount?_reversed, hunits, Option.map_none]
    simp only [weight?, hunits] at h
    simp only [weight?, hunits'] at h'
    obtain rfl := Checked.exact.inj h
    obtain rfl := Checked.exact.inj h'
    simp
  | some units =>
    have hunits' : p.reversed.amount? = some units.neg := by
      rw [amount?_reversed, hunits, Option.map_some]
    obtain ⟨total, htotal, hw⟩ := (weight?_eq_exact hunits).1 h
    obtain ⟨total', htotal', hw'⟩ := (weight?_eq_exact hunits').1 h'
    obtain ⟨hsome, hsum⟩ : total.isSome = total'.isSome ∧
        total.elim 0 (·.inCurrency c) + total'.elim 0 (·.inCurrency c) =
          2 * (p.cost.bind Cost.added?).elim 0 (·.inCurrency c) := by
      have hcost : p.reversed.cost = p.cost := rfl
      rw [hcost] at htotal'
      cases hcost : p.cost with
      | none =>
        rw [hcost] at htotal htotal'
        obtain rfl := Checked.exact.inj htotal
        obtain rfl := Checked.exact.inj htotal'
        simp
      | some cost =>
        rw [hcost] at htotal htotal'
        exact Cost.totalFor?_neg htotal htotal' c
    rw [Option.bind_some, ← hsum]
    rcases hw with ⟨hs, rfl⟩ | ⟨rfl, a, ha, rfl⟩
    · rcases hw' with ⟨-, rfl⟩ | ⟨rfl, -⟩
      · rfl
      · rw [hs] at hsome
        cases hsome
    · rcases hw' with ⟨hs', rfl⟩ | ⟨rfl, a', ha', rfl⟩
      · rw [hs'] at hsome
        cases hsome
      · have hprice : p.reversed.price = p.price := rfl
        rw [hprice] at ha'
        rw [Option.elim_none, add_zero]
        exact Price.convert?_neg ha ha' c

end Weights

/-! ## Where nothing is added -/

/-- The opposite number of the same currency, in any way of writing it. -/
def Amount.Opposes (a b : Amount) : Prop :=
  b.currency = a.currency ∧ b.number.value = -a.number.value

section Exact

variable {cost : Cost} {units a : Amount} {p : Posting} {w w' : Option Amount}

theorem Amount.opposes_neg (a : Amount) : a.Opposes a.neg := ⟨rfl, Decimal.value_neg _⟩

theorem Amount.neg_opposes (a : Amount) : a.neg.Opposes a :=
  ⟨rfl, by rw [Amount.neg, Decimal.value_neg, neg_neg]⟩

theorem Amount.withSign_opposes (units a : Amount) :
    (if units.number.negative then a.neg else a).Opposes
      (if units.neg.number.negative then a.neg else a) := by
  have hsign : units.neg.number.negative = !units.number.negative := rfl
  rw [hsign]
  cases units.number.negative
  · exact a.opposes_neg
  · exact a.neg_opposes

theorem Cost.exists_totalFor?_neg (hadded : ∀ a ∈ cost.added?, a.isZero)
    (h : cost.totalFor? units = .exact w) :
    ∃ w', cost.totalFor? units.neg = .exact w' ∧ Option.Rel Amount.Opposes w w' := by
  obtain ⟨perUnit, total, currency, date, label⟩ := cost
  cases currency with
  | none =>
    obtain rfl := Checked.exact.inj h
    exact ⟨none, rfl, .none⟩
  | some currency =>
  cases perUnit with
  | some perUnit =>
    obtain ⟨product, hproduct, hsum⟩ := Checked.bind_eq_exact.1 h
    obtain ⟨number, hnumber, hw⟩ := Checked.bind_eq_exact.1 hsum
    obtain rfl := Checked.exact.inj hw
    have hzero : (total.getD .zero).value = 0 := by
      cases total with
      | none => exact Decimal.value_zero
      | some total => exact Decimal.isZero_iff.1 (hadded ⟨total, currency⟩ rfl)
    have hvalue := Decimal.value_mul hproduct
    obtain ⟨product', hproduct', hvalue'⟩ : ∃ c, units.neg.number.mul perUnit = .exact c ∧
        c.value = product.neg.value := by
      refine Decimal.exists_mul ?_
      rw [Amount.neg, Decimal.value_neg, Decimal.value_neg, hvalue, neg_mul]
    obtain ⟨number', hnumber', hsum'⟩ := Decimal.exists_add (a := product')
      (b := total.getD .zero) (d := product') (by rw [hzero, add_zero])
    refine ⟨some ⟨number', currency⟩, ?_, .some ⟨rfl, ?_⟩⟩
    · exact Checked.bind_eq_exact.2 ⟨product', hproduct', by rw [hnumber']; rfl⟩
    · show number'.value = -number.value
      rw [hsum', hvalue', Decimal.value_neg, Decimal.value_add hnumber, hzero, add_zero]
  | none =>
  cases total with
  | none =>
    obtain rfl := Checked.exact.inj h
    exact ⟨none, rfl, .none⟩
  | some total =>
    rw [totalFor?_of_total rfl rfl rfl] at h ⊢
    obtain rfl := Checked.exact.inj h
    exact ⟨_, rfl, .some (Amount.withSign_opposes units ⟨total, currency⟩)⟩

theorem Price.exists_convert?_neg {price : Option Price}
    (h : price.elim (.exact units) (·.convert units) = .exact a) :
    ∃ b, price.elim (.exact units.neg) (·.convert units.neg) = .exact b ∧ a.Opposes b := by
  cases price with
  | none =>
    obtain rfl := Checked.exact.inj h
    exact ⟨units.neg, rfl, units.opposes_neg⟩
  | some price =>
  cases price with
  | unit one =>
    obtain ⟨number, hnumber, h⟩ := Checked.bind_eq_exact.1 h
    obtain rfl := Checked.exact.inj h
    obtain ⟨number', hnumber', hvalue⟩ : ∃ c, units.neg.number.mul one.number = .exact c ∧
        c.value = number.neg.value := by
      refine Decimal.exists_mul ?_
      rw [Amount.neg, Decimal.value_neg, Decimal.value_neg, Decimal.value_mul hnumber, neg_mul]
    refine ⟨⟨number', one.currency⟩, ?_, rfl, hvalue.trans (Decimal.value_neg _)⟩
    exact Checked.bind_eq_exact.2 ⟨number', hnumber', rfl⟩
  | total all =>
    obtain rfl := Checked.exact.inj h
    exact ⟨_, rfl, Amount.withSign_opposes units all⟩

/-- If a posting adds nothing, then the reversed one weighs the opposite amount. -/
theorem Posting.exists_weight?_reversed (hadded : ∀ a ∈ p.added?, a.isZero)
    (h : p.weight? = .exact w) :
    ∃ w', p.reversed.weight? = .exact w' ∧ Option.Rel Amount.Opposes w w' := by
  have hreversed := p.amount?_reversed
  cases hunits : p.amount? with
  | none =>
    rw [hunits, Option.map_none] at hreversed
    simp only [weight?, hunits] at h
    obtain rfl := Checked.exact.inj h
    exact ⟨none, by simp only [weight?, hreversed]; rfl, .none⟩
  | some units =>
    rw [hunits, Option.map_some] at hreversed
    obtain ⟨total, htotal, hw⟩ := (weight?_eq_exact hunits).1 h
    obtain ⟨total', htotal', hopposes⟩ : ∃ total',
        p.cost.elim (.exact none) (·.totalFor? units.neg) = .exact total' ∧
          Option.Rel Amount.Opposes total total' := by
      cases hcost : p.cost with
      | none =>
        rw [hcost] at htotal
        obtain rfl := Checked.exact.inj htotal
        exact ⟨none, rfl, .none⟩
      | some cost =>
        rw [hcost] at htotal
        refine Cost.exists_totalFor?_neg (fun a ha => hadded a ?_) htotal
        rwa [added?, hunits, Option.bind_some, hcost, Option.bind_some]
    have hweight {w' : Option Amount} := weight?_eq_exact (p := p.reversed) (w := w') hreversed
    rcases hw with ⟨hsome, rfl⟩ | ⟨rfl, a, ha, rfl⟩
    · cases hopposes with
      | none => cases hsome
      | some hab => exact ⟨_, hweight.2 ⟨_, htotal', .inl ⟨rfl, rfl⟩⟩, .some hab⟩
    · cases hopposes
      obtain ⟨b, hb, hab⟩ := Price.exists_convert?_neg ha
      exact ⟨some b, hweight.2 ⟨none, htotal', .inr ⟨rfl, b, hb, rfl⟩⟩, .some hab⟩

/-- If a posting adds nothing, then opposite totals stay so. -/
theorem Totals.exists_addWeight_reversed {t t' s : Totals} (hadded : ∀ a ∈ p.added?, a.isZero)
    (ht : ∀ c, (t'.number c).value = -(t.number c).value) (h : t.addWeight p = .exact s) :
    ∃ s', t'.addWeight p.reversed = .exact s' ∧
      ∀ c, (s'.number c).value = -(s.number c).value := by
  obtain ⟨w, hw, hadd⟩ := Checked.bind_eq_exact.1 h
  obtain ⟨w', hw', hopposes⟩ := Posting.exists_weight?_reversed hadded hw
  cases hopposes with
  | none =>
    obtain rfl := Checked.exact.inj hadd
    exact ⟨t', Checked.bind_eq_exact.2 ⟨none, hw', rfl⟩, ht⟩
  | @some a b hab =>
    obtain ⟨n, hn, hs⟩ := Checked.bind_eq_exact.1 hadd
    obtain ⟨n', hn', -⟩ : ∃ n', (t'.number b.currency).add b.number = .exact n' ∧
        n'.value = n.neg.value := by
      refine Decimal.exists_add ?_
      rw [ht, hab.1, hab.2, Decimal.value_neg, Decimal.value_add hn]
      ring
    have hadd' : t'.add b = .exact (t'.insert b.currency n') :=
      Checked.bind_eq_exact.2 ⟨n', hn', rfl⟩
    refine ⟨_, Checked.bind_eq_exact.2 ⟨some b, hw', hadd'⟩, fun c => ?_⟩
    rw [value_add hadd', value_add hadd, ht, Amount.inCurrency, Amount.inCurrency, hab.1, hab.2]
    split <;> ring

end Exact

/-! ## The residual -/

theorem Transaction.exists_residual_reversed {t : Transaction} {r : Totals}
    (hadded : ∀ p ∈ t.postings, ∀ a ∈ p.added?, a.isZero) (h : t.residual = .exact r) :
    ∃ r', t.reversed.residual = .exact r' := by
  suffices ∀ (ps : List Posting) (s s' r : Totals), (∀ p ∈ ps, ∀ a ∈ p.added?, a.isZero) →
      (∀ c, (s'.number c).value = -(s.number c).value) → ps.foldlM Totals.addWeight s = .exact r →
      ∃ r', (ps.map Posting.reversed).foldlM Totals.addWeight s' = .exact r' from
    this t.postings {} {} r hadded (fun _ => by simp [Totals.number]) h
  intro ps
  induction ps with
  | nil => exact fun _ s' _ _ _ _ => ⟨s', rfl⟩
  | cons p ps ih =>
    intro s s' r hadded hs h
    obtain ⟨hp, hps⟩ := List.forall_mem_cons.1 hadded
    obtain ⟨next, hnext, h⟩ := Checked.bind_eq_exact.1 h
    obtain ⟨next', hnext', hopposite⟩ := Totals.exists_addWeight_reversed hp hs hnext
    obtain ⟨r', hr'⟩ := ih next next' r hps hopposite h
    exact ⟨r', Checked.bind_eq_exact.2 ⟨next', hnext', hr'⟩⟩

/-- Together the residuals of a transaction and of the reversed one are twice what is added. -/
theorem Transaction.value_residual_reversed {t : Transaction} {r r' : Totals}
    (h : t.residual = .exact r) (h' : t.reversed.residual = .exact r') (c : Currency) :
    (r.number c).value + (r'.number c).value = 2 * (t.postings.map (·.addedIn c)).sum := by
  rw [value_residual h, value_residual h', reversed, List.map_map, ← List.sum_map_add,
    ← List.sum_map_mul_left]
  refine congrArg _ (List.map_congr_left fun p hp => ?_)
  obtain ⟨w, hw⟩ := exists_weight_of_residualOf (Checked.gives_true.2 h) p hp
  obtain ⟨w', hw'⟩ :=
    exists_weight_of_residualOf (Checked.gives_true.2 h') p.reversed (List.mem_map_of_mem hp)
  exact Posting.weightIn_reversed (Checked.gives_true.1 hw) (Checked.gives_true.1 hw') c

/-- Provided that every operation is exact, reversing a transaction reverses its residual in a
currency exactly if what the costs add to those of the single units cancels there. If they add
nothing, then the operations are exact for the reversed transaction, too. -/
theorem reversed_residual_iff {t : Transaction} {r : Totals} (h : t.residual = .exact r) :
    (∀ r', t.reversed.residual = .exact r' → ∀ c,
      ((r'.number c).value = -(r.number c).value ↔ (t.postings.map (·.addedIn c)).sum = 0)) ∧
    ((∀ p ∈ t.postings, ∀ a ∈ p.added?, a.isZero) → ∃ r', t.reversed.residual = .exact r' ∧
      ∀ c, (r'.number c).value = -(r.number c).value) := by
  have hsum {r' : Totals} (h' : t.reversed.residual = .exact r') (c : Currency) :
      (r'.number c).value = -(r.number c).value ↔ (t.postings.map (·.addedIn c)).sum = 0 := by
    have htwice := Transaction.value_residual_reversed h h' c
    constructor <;> intro heq <;> linarith
  refine ⟨fun r' => hsum, fun hadded => ?_⟩
  obtain ⟨r', h'⟩ := Transaction.exists_residual_reversed hadded h
  refine ⟨r', h', fun c => (hsum h' c).2 (List.sum_eq_zero fun x hx => ?_)⟩
  obtain ⟨p, hp, rfl⟩ := List.mem_map.1 hx
  exact p.addedIn_eq_zero (hadded p hp) c

/-- Shares bought at a cost each and a cost in all, and pounds changed at a price. -/
def portfolioPurchase : Transaction where
  postings := [
    { Posting.plain "Assets:Shares" (.ofNat 3) "ACME" with
      cost := some { perUnit := some (.written "1.50"), currency := some "USD" } },
    { Posting.plain "Assets:Shares" (.ofNat 8) "BOLT" with
      cost := some { total := some (.ofNat 90), currency := some "USD" } },
    { Posting.plain "Assets:Pounds" (.written "-60.0") "GBP" with
      price := some (.unit ⟨.written "1.25", "USD"⟩) },
    .plain "Assets:Cash" (.written "-15") "USD"]

theorem reversed_residual_iff_portfolioPurchase :
    ∃ r r', portfolioPurchase.residual = .exact r ∧
      portfolioPurchase.reversed.residual = .exact r' ∧
      (r.number "USD").text = "4.500" ∧ ∀ c, (r'.number c).value = -(r.number c).value := by
  obtain ⟨r, hr, htext⟩ : ∃ r, portfolioPurchase.residual = .exact r ∧
      (r.number "USD").text = "4.500" := by decide +kernel
  have hadded : ∀ p ∈ portfolioPurchase.postings, ∀ a ∈ p.added?, a.isZero := by decide +kernel
  obtain ⟨r', hr', hopposite⟩ := (reversed_residual_iff hr).2 hadded
  exact ⟨r, r', hr, hr', htext, hopposite⟩

/-- Ten shares at 2 dollars each with 5 dollars on top. -/
def sharesWithFee : Transaction where
  postings := [
    { Posting.plain "Assets:Shares" (.ofNat 10) "ACME" with
      cost := some
        { perUnit := some (.ofNat 2), total := some (.ofNat 5), currency := some "USD" } }]

/-- The shares were bought for 25 dollars, but sold again they come to 15. -/
theorem residual_reversed_sharesWithFee :
    (∀ p ∈ sharesWithFee.postings, ∃ a, p.amount? = some a ∧ ¬a.isZero) ∧
    (∃ r, sharesWithFee.residual = .exact r ∧
      r.toList.map (fun e => (e.1, e.2.text)) = [("USD", "25")]) ∧
    ∃ r', sharesWithFee.reversed.residual = .exact r' ∧
      r'.toList.map (fun e => (e.1, e.2.text)) = [("USD", "-15")] := by
  refine ⟨?_, by decide +kernel, by decide +kernel⟩
  simp [sharesWithFee, Posting.amount?, Posting.plain, Amount.isZero, Decimal.isZero,
    Decimal.ofNat, Decimal.limit]

end DoubleEntry
