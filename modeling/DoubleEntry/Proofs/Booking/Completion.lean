import DoubleEntry.Booking.Basic
import DoubleEntry.Proofs.Booking.Review

/-!
# The completed transaction

Interpolation touches only what was missing. A posting whose number was written stays where it is in
the order of the postings, with a currency if it had none, and what stands for any other is marked
as automatic. Nothing is missing from the result, so interpolation leaves it as it is.

* `without`, `marked`: a list without the elements at some positions, and the positions of marked
  elements.
* `Posting.KeptAs`, `Posting.InferredFrom`: what interpolation may do to a posting.
* `interpolate_frame`: what interpolation keeps of a transaction.
* `interpolate_again`: the result is complete, and interpolation does nothing to it.
-/

namespace DoubleEntry

/-! ## Positions -/

section Positions

variable {α : Type} {l : List (α × Bool)} {i : Nat}

/-- The list without the elements at some positions. -/
def without (l : List α) (positions : List Nat) : List α :=
  (l.zipIdx.filter (·.2 ∉ positions)).map (·.1)

/-- The positions of the marked elements. -/
def marked (l : List (α × Bool)) : List Nat := (l.zipIdx.filter (·.1.2)).map (·.2)

theorem mem_marked : i ∈ marked l ↔ ∃ a, l[i]? = some (a, true) := by
  simp only [marked, List.mem_map, List.mem_filter, Prod.exists, exists_eq_right,
    List.mk_mem_zipIdx_iff_getElem?]

theorem pairwise_marked (l : List (α × Bool)) : (marked l).Pairwise (· < ·) := by
  have hpositions : (l.zipIdx.map (·.2)).Pairwise (· < ·) := by
    rw [List.zipIdx_map_snd]
    exact List.pairwise_lt_range'
  exact hpositions.sublist (List.filter_sublist.map _)

/-- Without the marked elements there remain those that are not marked. -/
theorem without_marked (l : List (α × Bool)) :
    without (l.map (·.1)) (marked l) = (l.filter (!·.2)).map (·.1) := by
  have hkept : l.zipIdx.filter (·.2 ∉ marked l) = l.zipIdx.filter (!·.1.2) := by
    refine List.filter_congr fun ⟨⟨a, b⟩, i⟩ he => ?_
    rw [List.mk_mem_zipIdx_iff_getElem?] at he
    rw [Bool.eq_iff_iff, decide_eq_true_iff, mem_marked, he]
    simp
  calc without (l.map (·.1)) (marked l)
      = ((l.zipIdx.filter (·.2 ∉ marked l)).map (·.1)).map (·.1) := by
        rw [without, List.zipIdx_map, List.filter_map, List.map_map, List.map_map]
        rfl
    _ = ((l.zipIdx.map (·.1)).filter (!·.2)).map (·.1) := by
        rw [hkept, List.filter_map]
        rfl
    _ = (l.filter (!·.2)).map (·.1) := by rw [List.zipIdx_map_fst]

end Positions

/-! ## What becomes of a posting -/

namespace Posting

variable {p q : Posting}

/-- A number was written on the posting. -/
def hasNumber (p : Posting) : Bool := (p.units.bind Units.number?).isSome

/-- The second posting is the first, with a currency if only a number was written. -/
inductive KeptAs (p : Posting) : Posting → Prop
  | complete {a : Amount} (h : p.units = some (.complete a)) : KeptAs p p
  | gained {n : Decimal} {c : Currency} (h : p.units = some (.numberOnly n)) :
    KeptAs p { p with units := some (.complete ⟨n, c⟩) }

/-- The posting was filled in for one without a number. It takes the account, the flag and the
metadata from that one and is marked as automatic. If a currency was written there, it takes that,
too, with the cost and the price. -/
structure InferredFrom (q p : Posting) : Prop where
  noNumber : ¬p.hasNumber
  account : q.account = p.account
  flag : q.flag = p.flag
  metadata : ∀ key, q.metadata.get? key =
    if key = Metadata.automaticKey then some (.bool true) else p.metadata.get? key
  location : q.metadata.location? = p.metadata.location?
  complete : q.amount?.isSome
  currency : ∀ c, p.units = some (.currencyOnly c) →
    q.amount?.map (·.currency) = some c ∧ q.cost = p.cost ∧ q.price = p.price

theorem InferredFrom.isAutomatic (h : q.InferredFrom p) : q.isAutomatic := by
  rw [Posting.isAutomatic, Metadata.isAutomatic, h.metadata, if_pos rfl, beq_self_eq_true]

theorem get?_fill (p : Posting) (a : Amount) (key : String) : (p.fill a).metadata.get? key =
    if key = Metadata.automaticKey then some (.bool true) else p.metadata.get? key :=
  p.metadata.get?_insert _ key _

/-- A posting without units gives legs that are inferred from it. -/
theorem inferredFrom_of_open (hunits : p.units = none) (a : Amount) :
    ({ p with cost := none, price := none }.fill a).InferredFrom p where
  noNumber := by simp [hasNumber, hunits]
  account := rfl
  flag := rfl
  metadata := get?_fill _ a
  location := Metadata.location?_setAutomatic p.metadata
  complete := rfl
  currency c hc := by simp [hunits] at hc

theorem inferredFrom_of_currencyOnly {c : Currency} (hunits : p.units = some (.currencyOnly c))
    (n : Decimal) : (p.fill ⟨n, c⟩).InferredFrom p where
  noNumber := by simp [hasNumber, hunits, Units.number?]
  account := rfl
  flag := rfl
  metadata := get?_fill _ _
  location := Metadata.location?_setAutomatic p.metadata
  complete := rfl
  currency c' hc := by
    obtain rfl := Units.currencyOnly.inj (Option.some.inj (hunits.symm.trans hc))
    exact ⟨rfl, rfl, rfl⟩

theorem hasNumber_inContext (p : Posting) (shared : Option Currency) :
    (p.inContext shared).hasNumber = p.hasNumber := by
  rcases p.inContext_cases shared with h | ⟨n, currency, hunits, h⟩
  · rw [h]
  · rw [h, hasNumber, hasNumber, hunits]
    rfl

theorem inContext_of_not_hasNumber {shared : Option Currency} (h : ¬p.hasNumber) :
    p.inContext shared = p := by
  rcases p.inContext_cases shared with heq | ⟨n, currency, hunits, -⟩
  · exact heq
  · exact absurd (by simp [hasNumber, hunits, Units.number?]) h

/-- With the currency that the context tells, a posting with a number is complete. -/
theorem keptAs_inContext {shared : Option Currency} (hnumber : p.hasNumber)
    (hcurrency : ¬p.LacksCurrency shared) : p.KeptAs (p.inContext shared) := by
  unfold inContext
  unfold hasNumber at hnumber
  unfold LacksCurrency at hcurrency
  cases hunits : p.units with
  | none => simp [hunits] at hnumber
  | some units =>
    cases units with
    | complete a => exact .complete hunits
    | currencyOnly c => simp [hunits, Units.number?] at hnumber
    | numberOnly n =>
      cases hcontext : p.contextCurrency?.or shared with
      | none => exact absurd ⟨⟨n, hunits⟩, hcontext⟩ hcurrency
      | some c => exact .gained hunits

end Posting

/-- What stands in the place of a posting is the posting itself if a number was written on it, and
otherwise has been filled in for it. -/
theorem completed_cases (p : Posting) (leftOver : Totals) (solved : List (Currency × Decimal)) :
    (p.hasNumber ∧ completed leftOver solved p = [(p, false)]) ∨
      (¬p.hasNumber ∧ ∀ s ∈ completed leftOver solved p, s.2 ∧ s.1.InferredFrom p) := by
  unfold completed
  cases hunits : p.units with
  | none =>
    refine .inr ⟨by simp [Posting.hasNumber, hunits], fun s hs => ?_⟩
    obtain ⟨⟨c, n⟩, -, rfl⟩ := List.mem_map.1 hs
    exact ⟨rfl, Posting.inferredFrom_of_open hunits _⟩
  | some units =>
    cases units with
    | currencyOnly c =>
      refine .inr ⟨by simp [Posting.hasNumber, hunits, Units.number?], ?_⟩
      exact List.forall_mem_singleton.2 ⟨rfl, Posting.inferredFrom_of_currencyOnly hunits _⟩
    | complete a => exact .inl ⟨by simp [Posting.hasNumber, hunits, Units.number?], rfl⟩
    | numberOnly n => exact .inl ⟨by simp [Posting.hasNumber, hunits, Units.number?], rfl⟩

/-- If a posting was not marked as automatic, then what stands in its place is marked exactly if it
was filled in, and then it is inferred from that posting. -/
theorem Posting.inferredFrom_completed {p : Posting} {shared : Option Currency} {leftOver : Totals}
    {solved : List (Currency × Decimal)} {s : Posting × Bool} (hmark : ¬p.isAutomatic)
    (hs : s ∈ completed leftOver solved (p.inContext shared)) :
    s.1.isAutomatic = s.2 ∧ (s.2 → s.1.InferredFrom p) := by
  rcases completed_cases (p.inContext shared) leftOver solved with ⟨-, hkept⟩ | ⟨hnumber, hfilled⟩
  · rw [hkept] at hs
    obtain rfl := List.mem_singleton.1 hs
    have hmark' : (p.inContext shared).isAutomatic = p.isAutomatic := by
      rw [(p.inContext_eq shared).1]
      rfl
    exact ⟨by simpa [hmark'] using hmark, fun h => absurd h Bool.false_ne_true⟩
  · obtain ⟨hs, hinferred⟩ := hfilled s hs
    rw [inContext_of_not_hasNumber (p.hasNumber_inContext shared ▸ hnumber)] at hinferred
    exact ⟨hinferred.isAutomatic.trans hs.symm, fun _ => hinferred⟩

namespace Transaction

variable {strict : Bool} {t : Transaction} {written leftOver : Totals}
  {solved : List (Currency × Decimal)} {result : Interpolation}

/-- If no posting was marked as automatic, then those that were filled in are marked. -/
theorem isAutomatic_standIns (hmarks : ∀ p ∈ t.postings, ¬p.isAutomatic) {s : Posting × Bool}
    (hs : s ∈ t.standIns leftOver solved) : s.1.isAutomatic = s.2 := by
  rw [standIns, settled, List.flatMap_map] at hs
  obtain ⟨p, hp, hs⟩ := List.mem_flatMap.1 hs
  exact (Posting.inferredFrom_completed (hmarks p hp) hs).1

/-- What was not filled in are the postings with a number. -/
theorem filter_standIns (t : Transaction) (leftOver : Totals) (solved : List (Currency × Decimal)) :
    ((t.standIns leftOver solved).filter (!·.2)).map (·.1) =
      (t.postings.filter (·.hasNumber)).map (·.inContext t.sharedCurrency?) := by
  have hkept : ∀ p : Posting,
      ((completed leftOver solved (p.inContext t.sharedCurrency?)).filter (!·.2)).map (·.1) =
        if p.hasNumber then [p.inContext t.sharedCurrency?] else [] := by
    intro p
    rw [← p.hasNumber_inContext t.sharedCurrency?]
    rcases completed_cases (p.inContext t.sharedCurrency?) leftOver solved with
      ⟨hnumber, hkept⟩ | ⟨hnumber, hfilled⟩
    · rw [if_pos hnumber, hkept]
      rfl
    · rw [if_neg hnumber, List.map_eq_nil_iff, List.filter_eq_nil_iff]
      intro s hs
      simp [(hfilled s hs).1]
  rw [standIns, settled, List.flatMap_map, List.filter_flatMap, List.map_flatMap,
    List.flatMap_congr fun p _ => hkept p]
  induction t.postings with
  | nil => rfl
  | cons p ps ih =>
    rw [List.flatMap_cons, ih, List.filter_cons]
    split <;> rfl

end Transaction

/-- Interpolation touches only what was missing. If no posting was marked as automatic, then those
that are marked after it are the ones that were filled in. Without these there remain the postings
with a number, in their order, with a currency for a number alone. What was filled in takes all but
its mark from the posting in whose place it stands, and nothing else of the entry changes. -/
theorem interpolate_frame {d : Directive} {t : Transaction} {result : Interpolation}
    (hbody : d.body = .transaction t) (hmarks : ∀ p ∈ t.postings, ¬p.isAutomatic)
    (h : t.interpolate.run.value? = some (.ok result)) :
    (result.filled.Pairwise (· < ·) ∧ ∀ i, i ∈ result.filled ↔
      ∃ q, result.transaction.postings[i]? = some q ∧ q.isAutomatic) ∧
    List.Forall₂ Posting.KeptAs (t.postings.filter (·.hasNumber))
      (without result.transaction.postings result.filled) ∧
    (∃ legs : Posting → List Posting, result.transaction.postings = t.postings.flatMap legs ∧
      ∀ p ∈ t.postings, ∀ q ∈ legs p, q.isAutomatic → q.InferredFrom p) ∧
    d.book.value? = some { directive := { d with body := .transaction result.transaction } } ∧
    result.transaction = { t with postings := result.transaction.postings } := by
  obtain ⟨written, leftOver, solved, hfills⟩ :=
    Transaction.interpolate_gives.1 (Checked.gives_false.2 h)
  have hfilled : result.filled = marked (t.standIns leftOver solved) := hfills.filled
  have hpostings : result.transaction.postings = (t.standIns leftOver solved).map (·.1) := by
    rw [hfills.transaction]
  refine ⟨⟨?_, fun i => ?_⟩, ?_, ⟨fun p => (completed leftOver solved
    (p.inContext t.sharedCurrency?)).map (·.1), ?_, ?_⟩, ?_, ?_⟩
  · rw [hfilled]
    exact pairwise_marked _
  · rw [hfilled, hpostings, mem_marked, List.getElem?_map]
    cases hs : (t.standIns leftOver solved)[i]? with
    | none => simp
    | some s =>
      obtain ⟨q, mark⟩ := s
      have hmark : q.isAutomatic = mark :=
        Transaction.isAutomatic_standIns hmarks (List.mem_of_getElem? hs)
      simp [hmark]
  · rw [hfilled, hpostings, without_marked, t.filter_standIns, List.forall₂_map_right_iff,
      List.forall₂_same]
    intro p hp
    obtain ⟨hp, hnumber⟩ := List.mem_filter.1 hp
    exact Posting.keptAs_inContext hnumber (hfills.hasCurrency p hp)
  · rw [hpostings, t.map_standIns]
  · intro p hp q hq hauto
    obtain ⟨s, hs, rfl⟩ := List.mem_map.1 hq
    obtain ⟨hmark, hinferred⟩ := Posting.inferredFrom_completed (hmarks p hp) hs
    exact hinferred (hmark ▸ hauto)
  · rw [Directive.book, hbody]
    simp only [Checked.value?_bind, h, Option.bind_some]
    rfl
  · rw [hpostings]
    exact hfills.transaction

/-- Money of a group that paid in several currencies, with every kind of posting. -/
def groupTrip : Transaction where
  postings := [
    { account := "Assets:Card", flag := some '!', metadata := ({} : Metadata).setLine 2 },
    .plain "Assets:Cash" (.written "-40.00") "EUR",
    { Posting.plain "Expenses:Train" (.ofNat 2) "EUR" with
      price := some (.total ⟨.written "3.00", "CHF"⟩) },
    { account := "Expenses:Food", units := some (.numberOnly (.written "12.50")) },
    { account := "Assets:Wallet"
      units := some (.currencyOnly "USD")
      price := some (.unit ⟨.written "1.25", "EUR"⟩)
      metadata := ({} : Metadata).setLine 6 },
    { Posting.plain "Expenses:Hotel" (.ofNat 1) "EUR" with
      price := some (.unit ⟨.ofNat 2, "GBP"⟩) }]

theorem interpolate_groupTrip :
    ∃ result, groupTrip.interpolate.run = .exact (.ok result) ∧
      result.transaction.postings.map (·.amount?.map Amount.text) =
        [some "-3.00 CHF", some "-2 GBP", some "-40.00 EUR", some "2 EUR", some "12.50 EUR",
          some "22 USD", some "1 EUR"] ∧
      result.filled = [0, 1, 5] :=
  exists_exact_of_any (by decide +kernel)

theorem interpolate_frame_groupTrip :
    (∀ p ∈ groupTrip.postings, ¬p.isAutomatic) ∧
    ∃ result, groupTrip.interpolate.run.value? = some (.ok result) ∧
      (∃ q, result.transaction.postings[5]? = some q ∧ q.isAutomatic) ∧
      List.Forall₂ Posting.KeptAs (groupTrip.postings.filter (·.hasNumber))
        (without result.transaction.postings [0, 1, 5]) := by
  have hmarks : ∀ p ∈ groupTrip.postings, ¬p.isAutomatic := by decide +kernel
  obtain ⟨result, hresult, -, hfilled⟩ := interpolate_groupTrip
  have hvalue : groupTrip.interpolate.run.value? = some (.ok result) := by
    rw [hresult, Checked.value?_exact]
  obtain ⟨⟨-, hmarked⟩, hkept, -⟩ :=
    interpolate_frame (d := (Directive.Body.transaction groupTrip).on 0) rfl hmarks hvalue
  rw [hfilled] at hkept hmarked
  exact ⟨hmarks, result, hvalue, (hmarked 5).1 (by simp), hkept⟩

/-! ## Interpolating again -/

namespace Posting

variable {p : Posting}

theorem KeptAs.amount?_isSome {q : Posting} (h : p.KeptAs q) : q.amount?.isSome := by
  cases h with
  | complete h => rw [amount?, h, Option.isSome_some]
  | gained h => rfl

/-- Whatever stands in the place of a posting is complete. -/
theorem amount?_completed {shared : Option Currency} {leftOver : Totals}
    {solved : List (Currency × Decimal)} {s : Posting × Bool} (hcurrency : ¬p.LacksCurrency shared)
    (hs : s ∈ completed leftOver solved (p.inContext shared)) : s.1.amount?.isSome := by
  rcases completed_cases (p.inContext shared) leftOver solved with
    ⟨hnumber, hkept⟩ | ⟨-, hfilled⟩
  · rw [hkept] at hs
    obtain rfl := List.mem_singleton.1 hs
    exact (keptAs_inContext (p.hasNumber_inContext shared ▸ hnumber) hcurrency).amount?_isSome
  · exact (hfilled s hs).2.complete

theorem units_of_amount? (h : p.amount?.isSome) : ∃ a, p.units = some (.complete a) := by
  unfold amount? at h
  split at h
  · next a hunits => exact ⟨a, hunits⟩
  · cases h

end Posting

/-- Interpolation leaves a transaction as it is if all of its postings are complete. -/
theorem Transaction.interpolate_complete {strict : Bool} {t : Transaction} {residual : Totals}
    (h : ∀ p ∈ t.postings, p.amount?.isSome) (hresidual : t.residual.Gives strict residual) :
    t.interpolate.run.Gives strict (.ok { transaction := t, filled := [], residual }) := by
  have hunits : ∀ p ∈ t.postings, ∃ a, p.units = some (.complete a) :=
    fun p hp => Posting.units_of_amount? (h p hp)
  have hmissing : ∀ p ∈ t.postings, p.missingNumber? = none := by
    intro p hp
    obtain ⟨a, ha⟩ := hunits p hp
    rw [Posting.missingNumber?, ha]
  have hsettled : t.settled = t.postings := by
    refine (List.map_congr_left fun p hp => ?_).trans (List.map_id _)
    obtain ⟨a, ha⟩ := hunits p hp
    rw [Posting.inContext, ha, id]
  have hstandIns : t.standIns residual [] = t.postings.map (·, false) := by
    rw [standIns, hsettled, List.map_eq_flatMap]
    refine List.flatMap_congr fun p hp => ?_
    obtain ⟨a, ha⟩ := hunits p hp
    rw [completed, ha]
  refine interpolate_gives.2 ⟨residual, residual, [], ?_⟩
  exact {
    hasCurrency := by
      rintro p hp ⟨⟨n, hn⟩, -⟩
      obtain ⟨a, ha⟩ := hunits p hp
      simp [ha] at hn
    sum := by
      rw [written, ← settled, hsettled]
      exact hresidual
    nodup := by
      rw [List.filterMap_eq_nil_iff.2 hmissing]
      exact List.nodup_nil
    openCount := by
      rw [List.countP_eq_zero.2]
      · exact Nat.zero_le 1
      · intro p hp
        obtain ⟨a, ha⟩ := hunits p hp
        simp [ha]
    solving := by
      rw [missingNumbers_eq_nil hmissing]
      exact Checked.pure_gives_ok.2 rfl
    transaction := by
      rw [hstandIns, List.map_map]
      exact congrArg (fun postings => { t with postings }) (List.map_id _).symm
    filled := by
      rw [hstandIns]
      refine (List.eq_nil_iff_forall_not_mem.2 fun i hi => ?_).symm
      obtain ⟨p, hp⟩ := mem_marked.1 hi
      rw [List.getElem?_map, Option.map_eq_some_iff] at hp
      obtain ⟨q, -, hq⟩ := hp
      cases hq
    residual := hresidual }

/-- Interpolation leaves nothing open: in its result all postings are complete, and interpolating
the result fills in nothing, changes nothing, and gives the same residual. -/
theorem interpolate_again {t : Transaction} {result : Interpolation}
    (h : t.interpolate.run.value? = some (.ok result)) :
    (∀ q ∈ result.transaction.postings, ∃ a, q.units = some (.complete a)) ∧
      result.transaction.interpolate.run.value? = some (.ok
        { transaction := result.transaction, filled := [], residual := result.residual }) := by
  obtain ⟨written, leftOver, solved, hfills⟩ :=
    Transaction.interpolate_gives.1 (Checked.gives_false.2 h)
  have hcomplete : ∀ q ∈ result.transaction.postings, q.amount?.isSome := by
    intro q hq
    rw [hfills.transaction, t.map_standIns] at hq
    obtain ⟨p, hp, hq⟩ := List.mem_flatMap.1 hq
    obtain ⟨s, hs, rfl⟩ := List.mem_map.1 hq
    exact Posting.amount?_completed (hfills.hasCurrency p hp) hs
  refine ⟨fun q hq => Posting.units_of_amount? (hcomplete q hq), ?_⟩
  exact Checked.gives_false.1 (Transaction.interpolate_complete hcomplete hfills.residual)

theorem interpolate_again_groupTrip :
    ∃ result, groupTrip.interpolate.run.value? = some (.ok result) ∧
      result.transaction.postings.length = 7 ∧
      (∀ q ∈ result.transaction.postings, ∃ a, q.units = some (.complete a)) ∧
      ∃ again, result.transaction.interpolate.run.value? = some (.ok again) ∧
        again.transaction = result.transaction ∧ again.filled = [] := by
  obtain ⟨result, hresult, hamounts, -⟩ := interpolate_groupTrip
  have hvalue : groupTrip.interpolate.run.value? = some (.ok result) := by
    rw [hresult, Checked.value?_exact]
  have hlength := congrArg List.length hamounts
  rw [List.length_map] at hlength
  obtain ⟨hcomplete, hagain⟩ := interpolate_again hvalue
  exact ⟨result, hvalue, hlength, hcomplete, _, hagain, rfl, rfl⟩

end DoubleEntry
