import DoubleEntry.Proofs.Booking.Residual
import DoubleEntry.Proofs.Holdings
import DoubleEntry.Proofs.Sample
import DoubleEntry.Report.Balances

/-!
# Conservation

What transactions put into accounts is what their postings weigh, so a total over all accounts is
the sum of the residuals. A price breaks this: a posting without a cost weighs its value at the
price, but its account holds its units.

* `Posting.held?_eq_weight?`: what a posting adds to its account is its weight.
* `total_realized`: what entries leave in the accounts with a property.
* `total_realized_eq_sum_residuals`: double entry, from the transactions to the report.
-/

namespace DoubleEntry

/-- The postings of a ledger are those of its transactions. -/
theorem flatMap_postings (entries : List Directive) :
    entries.flatMap Directive.postings =
      (entries.filterMap Directive.transaction?).flatMap (·.postings) := by
  induction entries with
  | nil => rfl
  | cons d entries ih =>
    rw [List.flatMap_cons, ih, Directive.postings]
    cases h : d.transaction? with
    | none => simp [List.filterMap_cons_none h]
    | some t => simp [List.filterMap_cons_some h]

namespace Posting

/-- If the posting is complete and has a price, it also has a cost that says what its units are
worth. -/
def IsPricedAtCost (p : Posting) : Prop :=
  ∀ units, p.amount? = some units → p.price.isSome →
    ∃ cost total, p.cost = some cost ∧ (cost.totalFor? units).value? = some (some total)

/-- The number of units that a posting adds to its account in a currency, at cost. -/
def heldIn (p : Posting) (c : Currency) : ℚ := p.held?.value?.join.elim 0 (·.inCurrency c)

/-- Such a posting leaves in its account what it weighs: if it has a price, its cost decides. -/
theorem held?_eq_weight? {p : Posting} (hp : p.IsPricedAtCost) : p.held? = p.weight? := by
  unfold held? weight?
  cases hamount : p.amount? with
  | none => rfl
  | some units =>
    simp only [Option.elim]
    cases hprice : p.price with
    | none =>
      congr 1
      funext total
      cases total <;> rfl
    | some price =>
      obtain ⟨cost, total, hcost, htotal⟩ := hp units hamount (by simp [hprice])
      rw [hcost]
      -- The cost decides on both sides, whether computing it rounds or not.
      cases h : cost.totalFor? units with
      | error e => simp [h] at htotal
      | _ a => simp_all

end Posting

namespace Holdings

/-! ## What entries leave in the accounts -/

/-- An account that is only mentioned holds nothing. -/
theorem mention_eq {h : Holdings} (hd : h.Distinct) (account : Account) :
    (h.mention account).Distinct ∧ ∀ P c, (h.mention account).total P c = h.total P c :=
  ⟨hd.insert (hd account), fun P c => by rw [mention, total_insert]; simp⟩

/-- A posting is added to the total of its own account and to no other. -/
theorem hold_eq_exact {h h' : Holdings} {p : Posting} (hd : h.Distinct)
    (hp : h.hold p = .exact h') :
    h'.Distinct ∧
      ∀ P c, h'.total P c = h.total P c + if P p.account then p.heldIn c else 0 := by
  obtain ⟨held, hheld, hh⟩ := Checked.bind_eq_exact.1 hp
  cases held with
  | none =>
    obtain rfl : h = h' := by simpa using hh
    exact ⟨hd, by simp [Posting.heldIn, hheld]⟩
  | some a =>
    have hadd : h.add p.account a = .exact h' := hh
    refine ⟨distinct_add hd (Checked.gives_true.2 hadd), fun P c => ?_⟩
    simp [total_add hd hadd, Posting.heldIn, hheld]

/-- The units that postings add, at cost, to the accounts with a property. -/
def heldBy (ps : List Posting) (P : Account → Bool) (c : Currency) : ℚ :=
  (ps.map fun p => if P p.account then p.heldIn c else 0).sum

theorem heldBy_append (ps qs : List Posting) (P : Account → Bool) (c : Currency) :
    heldBy (ps ++ qs) P c = heldBy ps P c + heldBy qs P c := by simp [heldBy]

/-- An entry adds what its postings leave in the accounts. -/
theorem realize_eq_exact {h h' : Holdings} {d : Directive} (hd : h.Distinct)
    (hr : h.realize d = .exact h') :
    h'.Distinct ∧ ∀ P c, h'.total P c = h.total P c + heldBy d.postings P c := by
  unfold realize at hr
  split at hr
  · rename_i hbody
    obtain rfl := Checked.exact.inj hr
    simpa [Directive.postings_eq_nil, hbody, heldBy] using mention_eq hd _
  · rename_i t hbody
    rw [Directive.postings_of_transaction hbody]
    refine Checked.foldlM_invariant
      (fun seen (g : Holdings) => g.Distinct ∧ ∀ P c, g.total P c = h.total P c + heldBy seen P c)
      ⟨hd, by simp [heldBy]⟩ ?_ (Checked.gives_true.2 hr)
    rintro seen g p g' ⟨hg, htotal⟩ hp
    obtain ⟨hg', hadd⟩ := hold_eq_exact hg (Checked.gives_true.1 hp)
    exact ⟨hg', fun P c => by simp [hadd, htotal, heldBy, add_assoc]⟩
  · rename_i hopen htrans
    obtain rfl := Checked.exact.inj hr
    simpa [Directive.postings_eq_nil htrans, heldBy] using hd

theorem foldl_mention {h : Holdings} (hd : h.Distinct) (accounts : List Account)
    (P : Account → Bool) (c : Currency) : (accounts.foldl mention h).total P c = h.total P c := by
  induction accounts generalizing h with
  | nil => rfl
  | cons account accounts ih =>
    obtain ⟨hd', htotal⟩ := mention_eq hd account
    rw [List.foldl_cons, ih hd', htotal]

/-- The accounts with a property hold what the postings of the entries have added to them. -/
theorem total_realized {entries : List Directive} {h : Holdings} (hr : realized entries = .exact h)
    (P : Account → Bool) (c : Currency) :
    h.total P c = heldBy (entries.flatMap Directive.postings) P c := by
  obtain ⟨g, hg, hh⟩ := Checked.bind_eq_exact.1 hr
  have hinv : g.Distinct ∧
      ∀ P c, g.total P c = heldBy (entries.flatMap Directive.postings) P c := by
    refine Checked.foldlM_invariant
      (fun seen (g : Holdings) =>
        g.Distinct ∧ ∀ P c, g.total P c = heldBy (seen.flatMap Directive.postings) P c)
      ⟨distinct_empty, by simp [heldBy]⟩ ?_ (Checked.gives_true.2 hg)
    rintro seen g d g' ⟨hd, htotal⟩ hstep
    obtain ⟨hd', hadd⟩ := realize_eq_exact hd (Checked.gives_true.1 hstep)
    exact ⟨hd', fun P c => by simp [hadd, htotal, heldBy]⟩
  obtain rfl := Checked.exact.inj hh
  rw [foldl_mention hinv.1, hinv.2]

end Holdings

/-! ## From transactions to the report -/

/-- What transactions leave over is what all of their postings weigh together. -/
theorem sum_residuals {ts : List Transaction} {residuals : List Totals}
    (h : ts.mapM Transaction.residual = .exact residuals) (c : Currency) :
    (residuals.map fun r => (r.number c).value).sum =
      ((ts.flatMap (·.postings)).map (·.weightIn c)).sum := by
  induction ts generalizing residuals with
  | nil =>
    obtain rfl : [] = residuals := by simpa using h
    rfl
  | cons t ts ih =>
    rw [List.mapM_cons, Checked.bind_eq_exact] at h
    obtain ⟨r, hr, h⟩ := h
    obtain ⟨rest, hrest, h⟩ := Checked.bind_eq_exact.1 h
    obtain rfl := Checked.exact.inj h
    simp [ih hrest, Transaction.value_residual hr]

/-- **Conservation.** If no operation rounds, and prices stand only where a cost decides, the total
of a currency over all accounts of the report is the sum of the residuals of the transactions. So a
ledger in which every transaction balances exactly adds up to zero in every currency. -/
theorem total_realized_eq_sum_residuals {entries : List Directive} {h : Holdings}
    {residuals : List Totals}
    (hprice : ∀ d ∈ entries, ∀ p ∈ d.postings, p.IsPricedAtCost)
    (hh : Holdings.realized entries = .exact h)
    (hr : (entries.filterMap Directive.transaction?).mapM Transaction.residual = .exact residuals) :
    (∀ c, h.total (fun _ => true) c = (residuals.map fun r => (r.number c).value).sum) ∧
      ((∀ r ∈ residuals, ∀ c, (r.number c).value = 0) → ∀ c, h.total (fun _ => true) c = 0) := by
  have hsum : ∀ c, h.total (fun _ => true) c = (residuals.map fun r => (r.number c).value).sum := by
    intro c
    rw [Holdings.total_realized hh, sum_residuals hr, ← flatMap_postings, Holdings.heldBy]
    congr 1
    refine List.map_congr_left fun p hp => ?_
    obtain ⟨d, hd, hp⟩ := List.mem_flatMap.1 hp
    rw [if_pos rfl, Posting.heldIn, Posting.held?_eq_weight? (hprice d hd p hp), Posting.weightIn]
  refine ⟨hsum, fun hzero c => ?_⟩
  rw [hsum, List.map_congr_left fun r hr => hzero r hr c]
  simp

/-- Shares are bought at their price. -/
def purchase : List Directive :=
  [(Directive.Body.opening "Assets:Shares" [] none).on 0,
   (Directive.Body.transaction {
      postings := [
        { Posting.plain "Assets:Shares" (.ofNat 2) "HOOL" with
          cost := some { perUnit := some (.ofNat 100), currency := some "USD" }
          price := some (.unit ⟨.ofNat 100, "USD"⟩) },
        .plain "Assets:Cash" (Decimal.ofNat 200).neg "USD"] }).on 1]

theorem total_realized_purchase :
    ∃ h residuals,
      (∀ d ∈ purchase, ∀ p ∈ d.postings, p.IsPricedAtCost) ∧
      Holdings.realized purchase = .exact h ∧
      (purchase.filterMap Directive.transaction?).mapM Transaction.residual = .exact residuals ∧
      (∀ c, h.total (fun _ => true) c = (residuals.map fun r => (r.number c).value).sum) ∧
      ((∀ r ∈ residuals, ∀ c, (r.number c).value = 0) → ∀ c, h.total (fun _ => true) c = 0) := by
  have htotal : ∃ total, (Cost.totalFor? { perUnit := some (.ofNat 100), currency := some "USD" }
      ⟨.ofNat 2, "HOOL"⟩).value? = some (some total) :=
    ⟨⟨.ofNat 200, "USD"⟩, by decide +kernel⟩
  have hprice : ∀ d ∈ purchase, ∀ p ∈ d.postings, p.IsPricedAtCost := by
    simpa [purchase, Directive.Body.on, Directive.postings, Directive.transaction?, Posting.plain,
      Posting.IsPricedAtCost, Posting.amount?] using htotal
  obtain ⟨h, hh⟩ : ∃ h, Holdings.realized purchase = .exact h := by decide +kernel
  obtain ⟨residuals, hr⟩ : ∃ residuals,
      (purchase.filterMap Directive.transaction?).mapM Transaction.residual = .exact residuals := by
    decide +kernel
  exact ⟨h, residuals, hprice, hh, hr, total_realized_eq_sum_residuals hprice hh hr⟩

end DoubleEntry
