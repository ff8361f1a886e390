import DoubleEntry.Proofs.AccountTree
import DoubleEntry.Proofs.InventoryHistory
import DoubleEntry.Proofs.Lifetimes
import DoubleEntry.Proofs.OwnPostings
import DoubleEntry.Proofs.Sample

/-!
# The realized tree

Realizing entries fills the tree of accounts: it has the accounts that the entries use and those
above them, and each of them holds the plain sums of what its own complete postings add to it.

* `Posting.holding?`, `holdingsOf`: what the postings of an account add to it.
* `Inventory.foldlM_take_iff`: taking postings is adding their holdings.
* `Holdings.mem_realized_iff`: the accounts in the tree.
* `Holdings.exists_realized_iff_sums`: entries can be realized if all costs and sums fit.
-/

namespace DoubleEntry

/-- What a complete posting adds to its account: its cost if it says enough, or else its units. -/
def Posting.holding? (p : Posting) : Option Amount :=
  p.amount?.map fun units =>
    (p.cost.bind fun cost => (cost.totalFor? units).value?.join).getD units

/-- What the complete postings of an account among some postings add to it, in their order. -/
def holdingsOf (account : Account) (ps : List Posting) : List Amount :=
  (ps.filter (·.account = account)).filterMap Posting.holding?

/-- Whether the directive opens the account, or completely posts to it. -/
def Directive.Uses (d : Directive) (account : Account) : Prop :=
  d.opens account ∨ ∃ p ∈ d.postings, p.account = account ∧ p.amount?.isSome

variable {strict : Bool} {account a : Account} {p : Posting} {ps : List Posting}
  {d : Directive} {entries : List Directive}

theorem Posting.holding?_eq {held : Option Amount} (h : p.held?.value? = some held) :
    p.holding? = held := by
  unfold held? at h
  unfold holding?
  cases hunits : p.amount? with
  | none =>
    rw [hunits] at h
    exact Option.some.inj h
  | some units =>
    rw [hunits, Checked.value?_bind] at h
    obtain ⟨total, htotal, h⟩ := Option.bind_eq_some_iff.1 h
    obtain rfl := Option.some.inj h
    cases hcost : p.cost with
    | none =>
      rw [hcost] at htotal
      obtain rfl := Option.some.inj htotal
      rfl
    | some cost =>
      rw [hcost, Option.elim_some] at htotal
      rw [Option.map_some, Option.bind_some, htotal]
      rfl

theorem Posting.isSome_holding? (p : Posting) : p.holding?.isSome = p.amount?.isSome :=
  Option.isSome_map

theorem holdingsOf_eq_nil (h : ∀ p ∈ ps, p.account = account → ¬p.amount?.isSome) :
    holdingsOf account ps = [] := by
  refine List.filterMap_eq_nil_iff.2 fun p hp => ?_
  obtain ⟨hp, haccount⟩ := List.mem_filter.1 hp
  have hnone := h p hp (of_decide_eq_true haccount)
  rwa [← p.isSome_holding?, Option.not_isSome_iff_eq_none] at hnone

/-! ## What accounts hold -/

namespace Inventory

variable {inv inv' : Inventory}

/-- Taking postings is adding their holdings, if these can be told. -/
theorem foldlM_take_iff :
    (ps.foldlM take inv).value? = some inv' ↔
      (∀ p ∈ ps, ∃ held, p.held?.value? = some held) ∧
        ((ps.filterMap Posting.holding?).foldlM add inv).value? = some inv' := by
  induction ps generalizing inv with
  | nil => simp
  | cons p ps ih =>
    rw [List.foldlM_cons, Checked.value?_bind, take, Checked.value?_bind, List.forall_mem_cons]
    cases hheld : p.held?.value? with
    | none => simp
    | some held =>
      rw [Option.bind_some]
      cases held with
      | none =>
        rw [List.filterMap_cons_none (Posting.holding?_eq hheld)]
        simpa using ih
      | some a =>
        rw [List.filterMap_cons_some (Posting.holding?_eq hheld), List.foldlM_cons,
          Checked.value?_bind]
        cases hadd : (inv.add a).value? with
        | none => simp
        | some next => simpa [hadd] using ih

/-- An account can take its postings if each of them has something to hold and the amounts add up.
-/
theorem ofPostings_iff :
    (ofPostings account ps).value? = some inv ↔
      (∀ p ∈ ps, p.account = account → ∃ held, p.held?.value? = some held) ∧
        ((holdingsOf account ps).foldlM add {}).value? = some inv := by
  rw [ofPostings, foldlM_take_iff]
  simp [List.mem_filter, holdingsOf]

end Inventory

/-! ## Which accounts there are -/

namespace Holdings

variable {g h : Holdings}

theorem mem_insert_iff {inv : Inventory} :
    a ∈ Std.TreeMap.insert h account inv ↔ account = a ∨ a ∈ h := by
  rw [Std.TreeMap.mem_insert, Std.LawfulEqCmp.compare_eq_iff_eq]

theorem mem_foldl_mention_iff {accounts : List Account} :
    a ∈ accounts.foldl mention h ↔ a ∈ accounts ∨ a ∈ h := by
  induction accounts generalizing h with
  | nil => simp
  | cons account accounts ih =>
    rw [List.foldl_cons, ih, mention, mem_insert_iff, List.mem_cons, eq_comm (a := a),
      or_left_comm, or_assoc]

theorem mem_hold_iff (hh : (g.hold p).Gives strict h) :
    a ∈ h ↔ (p.account = a ∧ p.amount?.isSome) ∨ a ∈ g := by
  obtain ⟨held, hheld, hh⟩ := Checked.bind_gives.1 hh
  rw [← p.isSome_holding?, Posting.holding?_eq hheld.value?]
  cases held with
  | none =>
    obtain rfl := Checked.exact_gives.1 hh
    simp
  | some b =>
    obtain ⟨inv, -, hh⟩ := Checked.bind_gives.1 hh
    obtain rfl := Checked.exact_gives.1 hh
    rw [mem_insert_iff]
    simp

theorem mem_holdAll_iff (hh : (ps.foldlM hold g).Gives strict h) :
    a ∈ h ↔ (∃ p ∈ ps, p.account = a ∧ p.amount?.isSome) ∨ a ∈ g := by
  refine Checked.foldlM_invariant
    (fun seen (now : Holdings) => a ∈ now ↔ (∃ p ∈ seen, p.account = a ∧ p.amount?.isSome) ∨ a ∈ g)
    (by simp) (fun seen now p next hnow hp => ?_) hh
  rw [mem_hold_iff hp, hnow]
  simp only [List.mem_append, List.mem_singleton, or_and_right, exists_or, exists_eq_left]
  rw [or_left_comm, or_assoc]

/-- An entry brings in the accounts that it uses. -/
theorem mem_realize_iff (hh : (g.realize d).Gives strict h) : a ∈ h ↔ d.Uses a ∨ a ∈ g := by
  unfold realize at hh
  unfold Directive.Uses Directive.opens
  split at hh
  · next hbody =>
    obtain rfl := Checked.exact_gives.1 hh
    rw [mention, mem_insert_iff, Directive.postings_eq_nil (by simp [hbody])]
    simp [hbody]
  · next hbody =>
    rw [mem_holdAll_iff hh, Directive.postings_of_transaction hbody]
    simp [hbody]
  · next hopening htransaction =>
    obtain rfl := Checked.exact_gives.1 hh
    rw [Directive.postings_eq_nil htransaction]
    cases hbody : d.body with
    | opening account currencies booking => exact absurd hbody (hopening _ _ _)
    | _ => simp

/-- The tree has the accounts that the entries use, and those above them. -/
theorem mem_realized_iff (hh : (realized entries).Gives strict h) :
    a ∈ h ↔ ∃ b : Account, b.isWithin a ∧ ∃ d ∈ entries, d.Uses b := by
  obtain ⟨g, hg, hh⟩ := Checked.bind_gives.1 hh
  obtain rfl := Checked.exact_gives.1 hh
  have hused (b : Account) : b ∈ g ↔ ∃ d ∈ entries, d.Uses b := by
    refine Checked.foldlM_invariant (fun seen (now : Holdings) => b ∈ now ↔ ∃ d ∈ seen, d.Uses b)
      (by simp) (fun seen now d next hnow hd => ?_) hg
    rw [mem_realize_iff hd, hnow]
    simp only [List.mem_append, List.mem_singleton, or_and_right, exists_or, exists_eq_left]
    exact or_comm
  rw [mem_foldl_mention_iff, List.mem_flatMap]
  simp only [Std.TreeMap.mem_keys, Account.mem_ancestors_iff, Account.isWithin_eq, Bool.or_eq_true,
    beq_iff_eq, ← hused]
  constructor
  · rintro (⟨b, hb, hbelow⟩ | ha)
    · exact ⟨b, .inr hbelow, hb⟩
    · exact ⟨a, .inl rfl, ha⟩
  · rintro ⟨b, rfl | hbelow, hb⟩
    · exact .inr hb
    · exact .inl ⟨b, hb, hbelow⟩

/-- Every account above one that is there is there, too. -/
theorem mem_of_isBelow {top : Account} (hh : (realized entries).Gives strict h) (ha : a ∈ h)
    (hbelow : a.isBelow top) : top ∈ h := by
  obtain ⟨b, hb, hused⟩ := (mem_realized_iff hh).1 ha
  exact (mem_realized_iff hh).2
    ⟨b, Account.isWithin_trans hb (Account.isWithin_of_isBelow hbelow), hused⟩

/-! ## The tree as a whole -/

/-- Every account holds what its own postings add up to. -/
theorem sumsUp_realized (hh : (realized entries).value? = some h) (account : Account) :
    (h.inventory account).SumsUp (holdingsOf account (entries.flatMap Directive.postings)) := by
  have hown := (realized_gives (Checked.gives_false.2 hh) account).value?
  simpa using Inventory.SumsUp.empty.addAll (Inventory.ofPostings_iff.1 hown).2

/-- Entries can be realized if the costs that their postings say can be worked out, and all plain
sums fit. -/
theorem exists_realized_iff_sums (entries : List Directive) :
    (∃ h, (realized entries).value? = some h) ↔
      (∀ p ∈ entries.flatMap Directive.postings, ∃ held, p.held?.value? = some held) ∧
        ∀ account c, ∃ t,
          sumIn? c (holdingsOf account (entries.flatMap Directive.postings)) = some t := by
  rw [exists_realized_iff]
  simp only [Inventory.ofPostings_iff]
  have hsums (account : Account) :
      (∃ inv, ((holdingsOf account (entries.flatMap Directive.postings)).foldlM
        Inventory.add {}).value? = some inv) ↔
        ∀ c, ∃ t, sumIn? c (holdingsOf account (entries.flatMap Directive.postings)) = some t :=
    Inventory.SumsUp.empty.exists_addAll_iff
  constructor
  · intro hown
    refine ⟨fun p hp => ?_, fun account => ?_⟩
    · obtain ⟨-, hheld, -⟩ := hown p.account
      exact hheld p hp rfl
    · obtain ⟨inv, -, hinv⟩ := hown account
      exact (hsums account).1 ⟨inv, hinv⟩
  · rintro ⟨hheld, hfit⟩ account
    obtain ⟨inv, hinv⟩ := (hsums account).2 (hfit account)
    exact ⟨inv, fun p hp _ => hheld p hp, hinv⟩

/-- **The realized tree is complete.** Its accounts are those that are opened or completely posted
to and all accounts above them. The units of each are the plain sums of what its own complete
postings hold, and an account without any is empty. -/
theorem realized_complete (hh : (realized entries).value? = some h) :
    (∀ account, account ∈ h ↔ ∃ b : Account, b.isWithin account ∧ ∃ d ∈ entries, d.Uses b) ∧
    (∀ account c, ∃ t,
      sumIn? c (holdingsOf account (entries.flatMap Directive.postings)) = some t ∧
        ((h.inventory account).units c).Equals t) ∧
    ∀ account, (∀ d ∈ entries, ∀ p ∈ d.postings, p.account = account → ¬p.amount?.isSome) →
      h.inventory account = {} := by
  refine ⟨fun account => mem_realized_iff (Checked.gives_false.2 hh), fun account c => ?_,
    fun account hnone => ?_⟩
  · obtain ⟨t, ht, hunits⟩ := (sumsUp_realized hh account).units c
    exact ⟨t, ht, by rw [hunits, Decimal.equals_iff, Decimal.value_tidied]⟩
  · have hown := (realized_gives (Checked.gives_false.2 hh) account).value?
    rw [Inventory.ofPostings_iff, holdingsOf_eq_nil] at hown
    · exact (Option.some.inj hown.2).symm
    · intro p hp
      obtain ⟨d, hd, hp⟩ := List.mem_flatMap.1 hp
      exact hnone d hd p hp

/-- Shares at cost, dollars that return to zero and come back, and a posting without an amount. -/
def broker : List Directive :=
  [(Directive.Body.opening "Assets:Wallet:Coins" [] none).on 0,
   (Directive.Body.transaction {
      postings := [
        { Posting.plain "Assets:Broker:HOOL" (.ofNat 2) "HOOL" with
          cost := some { perUnit := some (.ofNat 100), currency := some "USD" } },
        .plain "Assets:Broker:HOOL" (Decimal.ofNat 200).neg "USD",
        .plain "Assets:Broker:HOOL" (.ofNat 7) "USD",
        { account := "Income:Gains" }] }).on 1]

theorem realized_complete_broker :
    ∃ h, (realized broker).value? = some h ∧
      h.keys = ["Assets", "Assets:Broker", "Assets:Broker:HOOL", "Assets:Wallet",
        "Assets:Wallet:Coins"] ∧
      (∀ account, account ∈ h ↔ ∃ b : Account, b.isWithin account ∧ ∃ d ∈ broker, d.Uses b) ∧
      (∀ account c, ∃ t,
        sumIn? c (holdingsOf account (broker.flatMap Directive.postings)) = some t ∧
          ((h.inventory account).units c).Equals t) ∧
      ∀ account, (∀ d ∈ broker, ∀ p ∈ d.postings, p.account = account → ¬p.amount?.isSome) →
        h.inventory account = {} := by
  obtain ⟨h, hh, hkeys⟩ : ∃ h, realized broker = .exact h ∧
      h.keys = ["Assets", "Assets:Broker", "Assets:Broker:HOOL", "Assets:Wallet",
        "Assets:Wallet:Coins"] := by decide +kernel
  have hvalue : (realized broker).value? = some h := by rw [hh, Checked.value?_exact]
  exact ⟨h, hvalue, hkeys, realized_complete hvalue⟩

end Holdings

end DoubleEntry
