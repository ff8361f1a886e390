import DoubleEntry.Proofs.Conservation
import DoubleEntry.Proofs.Order
import DoubleEntry.Proofs.OwnPostings
import DoubleEntry.Proofs.Padding.Run
import DoubleEntry.Proofs.Tolerance

/-!
# What padding leaves as it is

The padding transactions are sorted into the ledger, which keeps its order. They move units between
the accounts of the pads: the other accounts hold what they held, and all accounts together as much
of each currency.

* `Padding.Frame`: what a ledger and its padded form have in common.
* `mergePadding_frame`: when a sorted ledger has a padded form, and that the two are related so.
-/

namespace DoubleEntry

/-- The account is the one of a pad, or its source. -/
def NamedByPad (l : List Directive) (account : Account) : Prop :=
  ∃ d ∈ l, ∃ p, d.body = .pad p ∧ (p.account = account ∨ p.source = account)

/-- The directive is a padding transaction of a pad of the ledger. -/
def IsPaddingOf (l : List Directive) (t : Directive) : Prop :=
  ∃ (pad : DatedPad) (asserted difference : Amount), pad.directive ∈ l ∧
    t = pad.transaction asserted difference

variable {l made merged : List Directive} {t : Directive}

/-! ## Padding transactions -/

theorem IsPaddingOf.namedByPad (h : IsPaddingOf l t) {p : Posting} (hp : p ∈ t.postings) :
    NamedByPad l p.account := by
  obtain ⟨pad, asserted, difference, hpad, rfl⟩ := h
  rw [DatedPad.postings_transaction] at hp
  refine ⟨pad.directive, hpad, pad.pad, rfl, ?_⟩
  rcases List.mem_pair.1 hp with rfl | rfl
  · exact .inl rfl
  · exact .inr rfl

/-- A padding transaction takes from one account what it puts into another. -/
theorem IsPaddingOf.heldBy_eq_zero (h : IsPaddingOf l t) (c : Currency) :
    Holdings.heldBy t.postings (fun _ => true) c = 0 := by
  obtain ⟨pad, asserted, difference, -, rfl⟩ := h
  have hunits (account : Account) (units : Amount) :
      Posting.heldIn { account, units := some (.complete units), flag := some Flag.padding } c =
        units.inCurrency c := rfl
  simp [Holdings.heldBy, DatedPad.postings_transaction, hunits, Amount.inCurrency_neg]

/-- Of two transactions, the later one has the larger rank. -/
theorem IsPaddingOf.rank_lt_iff (h : IsPaddingOf l t) {d : Directive} {t' : Transaction}
    (hd : d.body = .transaction t') : t.rank < d.rank ↔ t.date < d.date := by
  obtain ⟨pad, asserted, difference, -, rfl⟩ := h
  obtain ⟨t, ht⟩ := pad.body_transaction asserted difference
  simp [Directive.rank_lt_iff, ht, hd, Directive.Body.priority]

namespace Directive.Interleaves

/-- The postings of an account that no padding transaction names. -/
theorem ofPostings_eq (h : Interleaves l made merged) (hmade : ∀ t ∈ made, IsPaddingOf l t)
    {account : Account} (haccount : ¬NamedByPad l account) :
    Inventory.ofPostings account (merged.flatMap postings) =
      Inventory.ofPostings account (l.flatMap postings) := by
  have hnone : ∀ t ∈ made, t.postings.filter (·.account = account) = [] := by
    intro t ht
    refine List.filter_eq_nil_iff.2 fun p hp => ?_
    have hne : p.account ≠ account := by
      rintro rfl
      exact haccount ((hmade t ht).namedByPad hp)
    simpa using hne
  rw [Inventory.ofPostings, Inventory.ofPostings, List.filter_flatMap, List.filter_flatMap,
    h.flatMap_eq hnone]

/-- The padding transactions add nothing to all accounts together. -/
theorem heldBy_eq {ledger : List Directive} (h : Interleaves l made merged)
    (hmade : ∀ t ∈ made, IsPaddingOf ledger t) (c : Currency) :
    Holdings.heldBy (merged.flatMap postings) (fun _ => true) c =
      Holdings.heldBy (l.flatMap postings) (fun _ => true) c := by
  induction h with
  | nil => rfl
  | old _ ih =>
    rw [List.flatMap_cons, List.flatMap_cons, Holdings.heldBy_append, Holdings.heldBy_append,
      ih hmade]
  | new _ _ ih =>
    obtain ⟨ht, hmade⟩ := List.forall_mem_cons.1 hmade
    rw [List.flatMap_cons, Holdings.heldBy_append, ht.heldBy_eq_zero, zero_add, ih hmade]

end Directive.Interleaves

/-! ## The padded ledger -/

/-- What a sorted ledger and its padded form have in common, for the padding transactions. -/
structure Padding.Frame (l transactions merged : List Directive) : Prop where
  /-- Every one of them is for a pad of the ledger. -/
  isPadding : ∀ t ∈ transactions, IsPaddingOf l t
  /-- The padded ledger is sorted, … -/
  sorted : Directive.IsSorted merged
  /-- … has the directives of the ledger in their order, and the padding transactions after all
  directives that do not have a larger rank, … -/
  interleaves : Directive.Interleaves l (Directive.sort transactions) merged
  /-- … so after all transactions that are not of a later date. -/
  rank_lt_iff : ∀ t ∈ transactions, ∀ d ∈ l, ∀ t', d.body = .transaction t' →
    (t.rank < d.rank ↔ t.date < d.date)
  /-- An account that no pad names holds the same in both. -/
  inventory_eq : ∀ account, ¬NamedByPad l account → ∀ h h',
    (Holdings.realized l).value? = some h → (Holdings.realized merged).value? = some h' →
      h'.inventory account = h.inventory account
  /-- If the ledger can be realized, the padded one can unless an account of a pad overflows. -/
  exists_realized_iff : (∃ h, (Holdings.realized l).value? = some h) →
    ((∃ h', (Holdings.realized merged).value? = some h') ↔ ∀ account, NamedByPad l account →
      ∃ inv, (Inventory.ofPostings account (merged.flatMap Directive.postings)).value? = some inv)
  /-- All accounts together hold as much of a currency, if nothing rounds. -/
  total_eq : ∀ h h', Holdings.realized l = .exact h → Holdings.realized merged = .exact h' →
    ∀ c, h'.total (fun _ => true) c = h.total (fun _ => true) c

theorem Padding.Frame.of_interleaves {transactions : List Directive}
    (hpadding : ∀ t ∈ transactions, IsPaddingOf l t) (hsorted : Directive.IsSorted merged)
    (h : Directive.Interleaves l (Directive.sort transactions) merged) :
    Frame l transactions merged := by
  have hmade : ∀ t ∈ Directive.sort transactions, IsPaddingOf l t :=
    fun t ht => hpadding t ((Directive.sort_perm transactions).mem_iff.1 ht)
  constructor
  case isPadding => exact hpadding
  case sorted => exact hsorted
  case interleaves => exact h
  case rank_lt_iff => exact fun t ht d _ t' hd => (hpadding t ht).rank_lt_iff hd
  case inventory_eq =>
    intro account haccount h₁ h₂ hl hmerged
    have hown := Holdings.realized_gives (Checked.gives_false.2 hl) account
    have hown' := Holdings.realized_gives (Checked.gives_false.2 hmerged) account
    rw [h.ofPostings_eq hmade haccount] at hown'
    exact Option.some.inj (hown'.value?.symm.trans hown.value?)
  case exists_realized_iff =>
    intro hl
    rw [Holdings.exists_realized_iff] at hl ⊢
    refine ⟨fun hall account _ => hall account, fun hnamed account => ?_⟩
    by_cases haccount : NamedByPad l account
    · exact hnamed account haccount
    · rw [h.ofPostings_eq hmade haccount]
      exact hl account
  case total_eq =>
    intro h₁ h₂ hl hmerged c
    rw [Holdings.total_realized hl, Holdings.total_realized hmerged, h.heldBy_eq hmade]

theorem mergePadding_eq_error_iff {e : ArithmeticError} :
    mergePadding l = .error e ↔ padding l = .error e := by
  unfold mergePadding
  rw [Checked.bind_eq_error_iff, or_iff_left]
  rintro ⟨⟨transactions, unused⟩, -, h⟩
  simp only at h
  split at h <;> cases h

theorem IsPaddingOf.of_padding {transactions : List Directive} {unused : List DatedPad}
    (h : (padding l).value? = some (transactions, unused)) (ht : t ∈ transactions) :
    IsPaddingOf l t := by
  obtain ⟨s, hrun, rfl⟩ := padding_gives (Checked.gives_false.2 h)
  obtain ⟨pad, asserted, difference, hpad, heq⟩ := Padding.exists_pad_of_mem_transactions hrun ht
  exact ⟨pad, asserted, difference, (Directive.sort_perm l).mem_iff.1 hpad, heq⟩

/-- Padding moves units between the accounts of its pads and changes nothing else. A sorted ledger
has a padded form unless an operation of padding fails, or an assertion that meets a pad asks for a
tolerance that does not exist; and then the two are framed by the padding transactions. -/
theorem mergePadding_frame (hl : Directive.IsSorted l) :
    ((∃ r, (mergePadding l).value? = some r) ↔
      (∀ e : ArithmeticError, e.OfOperation → mergePadding l ≠ .error e) ∧
        ∀ before d after s, l = before ++ d :: after →
          (Padding.run before).value? = some s → ¬s.LacksTolerance d) ∧
    ∀ merged unused, (mergePadding l).value? = some (merged, unused) →
      ∃ transactions, (padding l).value? = some (transactions, unused) ∧
        Padding.Frame l transactions merged := by
  have hsort := Directive.sort_of_isSorted hl
  constructor
  · rw [Checked.exists_value?_iff]
    constructor
    · intro hnone
      refine ⟨fun e _ => hnone e, fun before d after s hsplit hs hlacks => ?_⟩
      refine hnone (.scaleTooLarge (Decimal.maxScale + 1)) (mergePadding_eq_error_iff.2 ?_)
      exact (padding_eq_scaleTooLarge_iff l).2
        ⟨rfl, before, d, after, s, hsort.trans hsplit, hs, hlacks⟩
    · rintro ⟨hoperation, htolerance⟩ e he
      refine hoperation e (fun scale hscale => ?_) he
      rw [mergePadding_eq_error_iff, hscale, padding_eq_scaleTooLarge_iff, hsort] at he
      obtain ⟨-, before, d, after, s, hsplit, hs, hlacks⟩ := he
      exact htolerance before d after s hsplit hs hlacks
  · intro merged unused hmerged
    unfold mergePadding at hmerged
    rw [Checked.value?_bind] at hmerged
    obtain ⟨⟨transactions, unused'⟩, hpadding, hmerged⟩ := Option.bind_eq_some_iff.1 hmerged
    have hmade : ∀ t ∈ transactions, IsPaddingOf l t := fun t => .of_padding hpadding
    simp only at hmerged
    split at hmerged
    · next hempty =>
      obtain ⟨rfl, rfl⟩ := Prod.mk.inj (Option.some.inj hmerged)
      obtain rfl := List.isEmpty_iff.1 hempty
      have hnil : Directive.sort [] = [] := Directive.sort_of_isSorted .nil
      exact ⟨[], hpadding, .of_interleaves hmade hl (by rw [hnil]; exact .of_nil_right l)⟩
    · obtain ⟨rfl, rfl⟩ := Prod.mk.inj (Option.some.inj hmerged)
      exact ⟨transactions, hpadding,
        .of_interleaves hmade (Directive.isSorted_sort _) (Directive.interleaves_sort hl _)⟩

/-- A pad for an assertion of its day, on which something is bought as well. -/
def paddedWallet : List Directive :=
  [(Directive.Body.opening "Assets:Wallet" [] none).on 0,
   (Directive.Body.pad ⟨"Assets:Wallet", "Equity:Opening"⟩).on 1,
   (Directive.Body.balance ⟨"Assets:Wallet", ⟨.ofNat 100, "USD"⟩, none⟩).on 1,
   (Directive.Body.transaction {
      postings := [
        .plain "Expenses:Food" (.ofNat 3) "USD",
        .plain "Assets:Bank" (Decimal.ofNat 3).neg "USD"] }).on 1]

/-- The transaction that fills the wallet. -/
def walletTransfer : Directive :=
  DatedPad.transaction ⟨.afterNewYear 1, {}, ⟨"Assets:Wallet", "Equity:Opening"⟩⟩
    ⟨.ofNat 100, "USD"⟩ ⟨.ofNat 100, "USD"⟩

theorem mergePadding_frame_paddedWallet :
    ∃ merged unused transactions h h', Directive.IsSorted paddedWallet ∧
      (mergePadding paddedWallet).value? = some (merged, unused) ∧
      Padding.Frame paddedWallet transactions merged ∧
      Holdings.realized paddedWallet = .exact h ∧ Holdings.realized merged = .exact h' ∧
      h'.inventory "Expenses:Food" = h.inventory "Expenses:Food" ∧
      ∀ c, h'.total (fun _ => true) c = h.total (fun _ => true) c := by
  have hl : Directive.IsSorted paddedWallet := by decide +kernel
  have hpadding : (padding paddedWallet).value? = some ([walletTransfer], []) := by
    rw [padding, Directive.sort_of_isSorted hl]
    decide +kernel
  have hsort : Directive.sort (paddedWallet ++ [walletTransfer]) =
      paddedWallet ++ [walletTransfer] := Directive.sort_of_isSorted (by decide +kernel)
  have hmerged : (mergePadding paddedWallet).value? =
      some (paddedWallet ++ [walletTransfer], []) := by
    simp [mergePadding, hpadding, hsort]
  obtain ⟨h, hh⟩ : ∃ h, Holdings.realized paddedWallet = .exact h := by decide +kernel
  obtain ⟨h', hh'⟩ : ∃ h', Holdings.realized (paddedWallet ++ [walletTransfer]) = .exact h' := by
    decide +kernel
  obtain ⟨transactions, -, hframe⟩ := (mergePadding_frame hl).2 _ _ hmerged
  have hfood : ¬NamedByPad paddedWallet "Expenses:Food" := by
    rintro ⟨d, hd, p, hbody, hnamed⟩
    simp only [paddedWallet, List.mem_cons, List.not_mem_nil, or_false] at hd
    rcases hd with rfl | rfl | rfl | rfl
    case inr.inl =>
      obtain rfl := Directive.Body.pad.inj hbody
      revert hnamed
      decide
    all_goals cases hbody
  exact ⟨_, _, transactions, h, h', hl, hmerged, hframe, hh, hh',
    hframe.inventory_eq _ hfood h h' (by rw [hh, Checked.value?_exact])
      (by rw [hh', Checked.value?_exact]), hframe.total_eq h h' hh hh'⟩

/-- A third of a dollar, asserted of an account with a pad. -/
def paddedThird : List Directive :=
  [(Directive.Body.opening "Assets:Cash" [] none).on 0,
   (Directive.Body.opening "Equity:Opening" [] none).on 0,
   (Directive.Body.pad ⟨"Assets:Cash", "Equity:Opening"⟩).on 1,
   (Directive.Body.balance ⟨"Assets:Cash", ⟨third, "USD"⟩, none⟩).on 2]

/-- The ledger is sorted, but there is no padded form of it. -/
theorem mergePadding_paddedThird :
    Directive.IsSorted paddedThird ∧ mergePadding paddedThird = .error (.scaleTooLarge 29) := by
  have hl : Directive.IsSorted paddedThird := by decide +kernel
  refine ⟨hl, mergePadding_eq_error_iff.2 ?_⟩
  rw [padding, Directive.sort_of_isSorted hl]
  decide +kernel

end DoubleEntry
