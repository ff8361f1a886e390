import DoubleEntry.Proofs.Realized
import DoubleEntry.Proofs.Report.Line
import DoubleEntry.Proofs.Report.Registry
import DoubleEntry.Proofs.Sample

/-!
# Balances through the report

The balances of the accounts reach their records by way of a text: the balance report is written,
and its lines are read again. Every opened account gets what it holds in the first of its currencies
there, and nothing gets lost or mixed up, as long as no name contains a blank.

* `Holdings.grows_realized`: which accounts come into the report.
* `Inventory.balances`: the balance that a report shows beside the name of an account.
* `stated_headlines`, `perm_keys`: what the lines of a report state.
* `addReport_balanceLines`: the records after the report of the entries.
-/

namespace DoubleEntry

/-- The accounts that a directive brings into the balance report. -/
def Directive.reported (d : Directive) : List Account :=
  match d.body with
  | .opening account _ _ => [account]
  | .transaction t => t.postings.map (·.account)
  | _ => []

/-! ## Which accounts there are -/

theorem Directive.mem_reported {d : Directive} {a : Account} (h : d.Uses a) : a ∈ d.reported := by
  obtain ⟨date, metadata, body⟩ := d
  cases body with
  | transaction t =>
    obtain hopens | ⟨p, hp, rfl, -⟩ := h
    · cases hopens
    · exact List.mem_map_of_mem hp
  | _ => simp_all [Uses, opens, postings, transaction?, reported]

/-- An account without blanks is below accounts without blanks only. -/
theorem Account.not_mem_of_mem_ancestors {account a : Account} (h : ' ' ∉ account.toList)
    (ha : a ∈ account.ancestors) : ' ' ∉ a.toList := by
  obtain ⟨rest, hrest⟩ := isBelow_iff.1 (mem_ancestors_iff.1 ha)
  intro hblank
  exact h (by rw [hrest]; exact List.mem_append_left _ hblank)

namespace Holdings

variable {strict : Bool} {h : Holdings} {entries : List Directive}

/-- The accounts after some entries: those of the entries and those above them, and among them all
that were opened. -/
theorem grows_realized (hh : (realized entries).Gives strict h) :
    h.Distinct ∧ (∀ d ∈ entries, ∀ a, d.opens a → a ∈ h) ∧
      ∀ a ∈ h, ∃ d ∈ entries, ∃ b ∈ d.reported, a = b ∨ a ∈ b.ancestors := by
  refine ⟨fun account => (sumsUp_realized hh.value? account).distinct, fun d hd a ha => ?_,
    fun a ha => ?_⟩
  · exact (mem_realized_iff hh).2 ⟨a, Account.isWithin_self a, d, hd, .inl ha⟩
  · obtain ⟨b, hb, d, hd, hused⟩ := (mem_realized_iff hh).1 ha
    rw [Account.isWithin_eq, Bool.or_eq_true, beq_iff_eq, ← Account.mem_ancestors_iff] at hb
    exact ⟨d, hd, b, Directive.mem_reported hused, hb.imp_left Eq.symm⟩

end Holdings

/-! ## The balance of an account -/

namespace Inventory

variable {inv : Inventory}

/-- The alphabetically first currency that is held. -/
def firstCurrency? (inv : Inventory) : Option Currency := (inv.positions.map (·.currency)).min?

/-- What a report has on the line with the name of an account, if anything is held. -/
def headline? (style : NumberStyle) (account : Account) (inv : Inventory) : Option BalanceLine :=
  inv.firstCurrency?.map fun c => ⟨account, style.format (inv.units c) c⟩

/-- The balance that a report shows beside the name of an account: one number if anything is held,
the one in the alphabetically first currency. -/
def balances (style : NumberStyle) (inv : Inventory) : List String :=
  inv.firstCurrency?.toList.map fun c => style.format (inv.units c) c

theorem headline?_eq_none (h : inv.firstCurrency? = none) (style : NumberStyle)
    (account : Account) : inv.headline? style account = none := by rw [headline?, h, Option.map_none]

theorem headline?_eq_some {c : Currency} (h : inv.firstCurrency? = some c) (style : NumberStyle)
    (account : Account) :
    inv.headline? style account = some ⟨account, style.format (inv.units c) c⟩ := by
  rw [headline?, h, Option.map_some]

theorem units_of_mem {p : Amount} (hd : inv.Distinct) (hp : p ∈ inv.positions) :
    inv.units p.currency = p.number := by
  obtain ⟨l⟩ := inv
  unfold Distinct at hd
  induction l with
  | nil => simp at hp
  | cons q l ih =>
    obtain ⟨hq, hl⟩ := List.nodup_cons.1 hd
    rw [units_cons]
    rcases List.mem_cons.1 hp with rfl | hp
    · rw [if_pos rfl]
    · rw [if_neg fun h => hq (List.mem_map.2 ⟨p, hp, h.symm⟩), ih hl hp]

theorem isSome_firstCurrency? : inv.firstCurrency?.isSome ↔ ¬inv.isEmpty := by
  obtain ⟨_ | ⟨p, l⟩⟩ := inv <;> simp [firstCurrency?, isEmpty]

theorem eq_balances_of_perm {style : NumberStyle} {l : List String}
    (h : l.Perm (inv.balances style)) : l = inv.balances style := by
  unfold balances at h ⊢
  cases hc : inv.firstCurrency? with
  | none => simpa [hc] using h
  | some c => simpa [hc] using h

theorem headline?_ofInventory (style : NumberStyle) (account : Account) (hd : inv.Distinct) :
    (AccountBalance.ofInventory style account inv).headline? = inv.headline? style account := by
  have hperm := AccountBalance.perm_sorted inv
  have hsorted := AccountBalance.pairwise_sorted inv
  rw [AccountBalance.headline?, AccountBalance.cells_ofInventory]
  cases hl : AccountBalance.sorted inv with
  | nil =>
    rw [hl] at hperm
    have hnone : inv.positions = [] := hperm.symm.eq_nil
    have hfirst : inv.firstCurrency? = none := by simp [firstCurrency?, hnone]
    simp [headline?_eq_none hfirst]
  | cons p rest =>
    rw [hl] at hperm hsorted
    have hp : p ∈ inv.positions := hperm.mem_iff.1 List.mem_cons_self
    have hfirst : inv.firstCurrency? = some p.currency := by
      refine List.min?_eq_some_iff.2 ⟨List.mem_map_of_mem hp, fun c hc => ?_⟩
      obtain ⟨q, hq, rfl⟩ := List.mem_map.1 hc
      rcases List.mem_cons.1 (hperm.mem_iff.2 hq) with rfl | hq
      · exact le_refl _
      · exact List.rel_of_pairwise_cons hsorted hq
    simp [headline?_eq_some hfirst, units_of_mem hd hp, AccountBalance.ofInventory]

end Inventory

/-! ## The report -/

section Report

variable {style : NumberStyle} {h : Holdings} {r : Registry} {account : Account}

/-- What the balance report states beside the names of the accounts, by account. -/
def Holdings.headlines (style : NumberStyle) (h : Holdings) : List BalanceLine :=
  h.toList.filterMap fun e => e.2.headline? style e.1

theorem perm_headlines (hd : h.Distinct) :
    ((AccountBalance.ofHoldings style h).filterMap AccountBalance.headline?).Perm
      (h.headlines style) := by
  have hperm := (List.mergeSort_perm (h.toList.map fun e =>
    AccountBalance.ofInventory style e.1 e.2) fun a b => a.account.isBefore b.account).filterMap
      AccountBalance.headline?
  refine hperm.trans ?_
  rw [List.filterMap_map]
  refine .of_eq (List.filterMap_congr fun e he => Inventory.headline?_ofInventory style e.1 ?_)
  have hinv := hd e.1
  rwa [Holdings.inventory_of_mem he] at hinv

/-- An account has the balance of its inventory beside its name. -/
theorem stated_headlines (style : NumberStyle) (h : Holdings) (account : Account) :
    (Registry.stated account (h.headlines style)).Perm ((h.inventory account).balances style) := by
  have hothers : ((h.others account).filterMap fun e => e.2.headline? style e.1).filter
      (·.account = account) = [] := by
    refine List.filter_eq_nil_iff.2 fun line hline => ?_
    obtain ⟨e, he, hline⟩ := List.mem_filterMap.1 hline
    obtain ⟨c, -, rfl⟩ := Option.map_eq_some_iff.1 hline
    have hne : account ≠ e.1 := by simpa using (List.mem_filter.1 he).2
    simpa using hne.symm
  unfold Registry.stated Holdings.headlines Holdings.inventory
  rw [Std.TreeMap.getD_eq_getD_getElem?]
  cases ha : h[account]? with
  | none =>
    rw [← Holdings.others_eq_toList ha, hothers]
    exact .refl _
  | some inv =>
    refine (((Holdings.toList_perm ha).filterMap _).filter _ |>.map _).trans (.of_eq ?_)
    cases hc : inv.firstCurrency? with
    | none => simp [Inventory.headline?_eq_none hc, hc, hothers, Inventory.balances]
    | some c => simp [Inventory.headline?_eq_some hc, hc, hothers, Inventory.balances]

theorem mem_headlines_iff :
    account ∈ (h.headlines style).map (·.account) ↔ account ∈ h ∧ ¬(h.inventory account).isEmpty := by
  constructor
  · intro hmem
    obtain ⟨line, hline, rfl⟩ := List.mem_map.1 hmem
    obtain ⟨e, he, hline⟩ := List.mem_filterMap.1 hline
    obtain ⟨c, hc, rfl⟩ := Option.map_eq_some_iff.1 hline
    refine ⟨Std.TreeMap.mem_iff_isSome_getElem?.2 ?_, ?_⟩
    · rw [Std.TreeMap.mem_toList_iff_getElem?_eq_some.1 he, Option.isSome_some]
    · rw [Holdings.inventory_of_mem he, ← Inventory.isSome_firstCurrency?, hc, Option.isSome_some]
  · rintro ⟨hmem, hheld⟩
    obtain ⟨inv, hinv⟩ := Option.isSome_iff_exists.1 (Std.TreeMap.mem_iff_isSome_getElem?.1 hmem)
    have he : (account, inv) ∈ h.toList := Std.TreeMap.mem_toList_iff_getElem?_eq_some.2 hinv
    rw [Holdings.inventory_of_mem he] at hheld
    obtain ⟨c, hc⟩ := Option.isSome_iff_exists.1 (Inventory.isSome_firstCurrency?.2 hheld)
    exact List.mem_map.2 ⟨⟨account, style.format (inv.units c) c⟩,
      List.mem_filterMap.2 ⟨_, he, Inventory.headline?_eq_some hc style account⟩, rfl⟩

theorem nodup_headlines (style : NumberStyle) (h : Holdings) :
    ((h.headlines style).map (·.account)).Nodup := by
  refine List.pairwise_map.2 (List.pairwise_filterMap.2 ?_)
  refine Std.TreeMap.distinct_keys_toList.imp ?_
  intro e e' hne line hline line' hline'
  obtain ⟨c, -, rfl⟩ := Option.map_eq_some_iff.1 hline
  obtain ⟨c', -, rfl⟩ := Option.map_eq_some_iff.1 hline'
  simpa using hne

/-- The known accounts with a balance beside their names are those that hold something. -/
theorem perm_keys (style : NumberStyle) (hknown : ∀ a ∈ r, a ∈ h) :
    (((h.headlines style).filter (·.account ∈ r)).map (·.account)).Perm
      (r.keys.filter fun a => !(h.inventory a).isEmpty) := by
  refine (List.perm_ext_iff_of_nodup ?_ ?_).2 fun a => ?_
  · exact (nodup_headlines style h).sublist (List.filter_sublist.map _)
  · exact Std.TreeMap.nodup_keys.filter _
  · have hleft : a ∈ ((h.headlines style).filter (·.account ∈ r)).map (·.account) ↔
        a ∈ (h.headlines style).map (·.account) ∧ a ∈ r := by
      simp only [List.mem_map, List.mem_filter, decide_eq_true_eq]
      constructor
      · rintro ⟨line, ⟨hline, hr⟩, rfl⟩
        exact ⟨⟨line, hline, rfl⟩, hr⟩
      · rintro ⟨⟨line, hline, rfl⟩, hr⟩
        exact ⟨line, ⟨hline, hr⟩, rfl⟩
    rw [hleft, mem_headlines_iff, List.mem_filter, Std.TreeMap.mem_keys]
    simp only [Bool.not_eq_true, Bool.not_eq_eq_eq_not, Bool.not_true]
    exact ⟨fun h => ⟨h.2, h.1.2⟩, fun h => ⟨⟨hknown a h.1, h.2⟩, h.1⟩⟩

/-- The lines of a report, read back, state what is beside the names of accounts. -/
theorem perm_read_report (style : NumberStyle) (hd : h.Distinct)
    (hnames : ∀ a ∈ h, ' ' ∉ a.toList) (widths : Nat × Nat) {p : BalanceLine → Bool}
    (hp : ∀ line, p line → line.account ≠ "") :
    ((((AccountBalance.ofHoldings style h).flatMap (·.lines widths)).filterMap
      BalanceLine.ofText?).filter p).Perm ((h.headlines style).filter p) := by
  have hnamed (l : List BalanceLine) : l.filter p = (l.filter (·.account ≠ "")).filter p := by
    rw [List.filter_filter]
    refine List.filter_congr fun line _ => ?_
    cases hline : p line
    · rfl
    · simp [hp line hline]
  rw [hnamed, AccountBalance.filterMap_flatMap_lines, ← hnamed]
  · exact (perm_headlines hd).filter _
  · intro b hb
    obtain ⟨e, he, rfl⟩ := List.mem_map.1 ((List.mergeSort_perm _ _).mem_iff.1 hb)
    refine ⟨hnames e.1 ?_, fun cell hcell => ?_⟩
    · rw [Std.TreeMap.mem_iff_isSome_getElem?, Std.TreeMap.mem_toList_iff_getElem?_eq_some.1 he]
      rfl
    · obtain ⟨a, -, rfl⟩ := List.mem_map.1 hcell
      exact style.isWord_format a.number a.currency

/-- The known accounts get the balances of their inventories from a report, and as many balances are
counted as known accounts hold something. -/
theorem addReport_report (style : NumberStyle) (hd : h.Distinct)
    (hnames : ∀ a ∈ h, ' ' ∉ a.toList) (hr : "" ∉ r) (hknown : ∀ a ∈ r, a ∈ h)
    (widths : Nat × Nat) :
    let after := r.addReport ((AccountBalance.ofHoldings style h).flatMap (·.lines widths))
    (∀ account : Account, after.1[account]? =
      r[account]?.map (·.withBalances ((h.inventory account).balances style))) ∧
    after.2 = (r.keys.filter fun a => !(h.inventory a).isEmpty).length := by
  refine ⟨fun account => ?_, ?_⟩
  · rw [Registry.getElem?_addReport]
    cases hrecord : r[account]? with
    | none => rfl
    | some record =>
      have haccount : account ≠ "" := by
        rintro rfl
        exact hr (Std.TreeMap.mem_iff_isSome_getElem?.2 (by rw [hrecord]; rfl))
      have hperm := perm_read_report style hd hnames widths (p := (·.account = account))
        fun line hline => (of_decide_eq_true hline).trans_ne haccount
      have hstated := Inventory.eq_balances_of_perm
        ((hperm.map BalanceLine.number).trans (stated_headlines style h account))
      rw [Option.map_some, Option.map_some, Registry.stated, hstated]
  · have hperm := perm_read_report style hd hnames widths (p := (·.account ∈ r))
      fun line hline hempty => hr (hempty ▸ of_decide_eq_true hline)
    rw [Registry.count_addReport, hperm.length_eq, ← (perm_keys style hknown).length_eq,
      List.length_map]

end Report

/-- **Balances come through the report.** If no name of an account in it contains a blank, the
report that is written of the entries and read back gives every opened account its balance: none if
it holds nothing, or else the number in the alphabetically first currency that it holds, as the
style shows it. Nothing else in the records changes, and the balances are counted. -/
theorem addReport_balanceLines {entries : List Directive} {h : Holdings} (style : NumberStyle)
    (texts : Bool) (hnames : ∀ d ∈ entries, ∀ a ∈ d.reported, ' ' ∉ a.toList)
    (hh : (Holdings.realized entries).value? = some h) :
    ∃ lines, (balanceLines style entries).value? = some lines ∧
      let before := (Summary.ofEntries texts entries).accounts
      let after := (Summary.ofEntries texts entries).addReport lines
      (∀ account, account ∈ before ↔ account ≠ "" ∧ ∃ d ∈ entries, d.opens account) ∧
      (∀ (account : Account) (record : AccountRecord), before[account]? = some record →
        account ∈ h ∧ after.1.accounts[account]? =
          some { record with balances := (h.inventory account).balances style }) ∧
      (∀ account : Account, before[account]? = none → after.1.accounts[account]? = none) ∧
      after.2 = (before.keys.filter fun account => !(h.inventory account).isEmpty).length := by
  obtain ⟨hdistinct, hopened, hmem⟩ := Holdings.grows_realized (Checked.gives_false.2 hh)
  have hblank : ∀ a ∈ h, ' ' ∉ a.toList := by
    intro a ha
    obtain ⟨d, hd, b, hb, rfl | ha⟩ := hmem a ha
    · exact hnames d hd a hb
    · exact Account.not_mem_of_mem_ancestors (hnames d hd b hb) ha
  have hknown : ∀ a ∈ (Summary.ofEntries texts entries).accounts, a ∈ h := by
    intro a ha
    obtain ⟨-, d, hd, hopens⟩ := Summary.mem_accounts_iff.1 ha
    exact hopened d hd a hopens
  have hempty : "" ∉ (Summary.ofEntries texts entries).accounts := fun hempty =>
    (Summary.mem_accounts_iff.1 hempty).1 rfl
  let balances := AccountBalance.ofHoldings style h
  obtain ⟨hrecords, hcount⟩ := addReport_report style hdistinct hblank hempty hknown
    (AccountBalance.widths balances)
  refine ⟨balances.flatMap (AccountBalance.lines (AccountBalance.widths balances)), ?_,
    fun _ => Summary.mem_accounts_iff, fun account record hrecord => ⟨hknown account ?_, ?_⟩,
    fun account hnone => ?_, hcount⟩
  · rw [balanceLines, Checked.value?_bind, hh]
    rfl
  · exact Std.TreeMap.mem_iff_isSome_getElem?.2 (by rw [hrecord]; rfl)
  · have hnew := Summary.isBlank_accounts texts entries account record hrecord
    exact (hrecords account).trans (by rw [hrecord, Option.map_some, AccountRecord.withBalances,
      hnew, List.nil_append])
  · exact (hrecords account).trans (by rw [hnone, Option.map_none])

/-- A wallet with two currencies, an account that returns to zero, and one that is not opened. -/
def wallet : List Directive :=
  [(Directive.Body.opening "Assets:Wallet" [] none).on 0,
   (Directive.Body.opening "Assets:Wallet:Coins" [] none).on 0,
   (Directive.Body.transaction {
      postings := [
        .plain "Assets:Wallet" (.ofNat 1234567) "EUR",
        .plain "Income:Work" (Decimal.ofNat 1234567).neg "EUR",
        .plain "Assets:Wallet" (Decimal.ofNat 5).neg "CHF",
        .plain "Assets:Wallet:Coins" (.ofNat 5) "CHF",
        .plain "Assets:Wallet:Coins" (Decimal.ofNat 5).neg "CHF"] }).on 1]

theorem addReport_balanceLines_wallet :
    ∃ h, (∀ d ∈ wallet, ∀ a ∈ d.reported, ' ' ∉ a.toList) ∧
      (Holdings.realized wallet).value? = some h ∧
      ∃ lines, (balanceLines { commas := true } wallet).value? = some lines ∧
        let before := (Summary.ofEntries false wallet).accounts
        let after := (Summary.ofEntries false wallet).addReport lines
        (∀ account, account ∈ before ↔ account ≠ "" ∧ ∃ d ∈ wallet, d.opens account) ∧
        (∀ (account : Account) (record : AccountRecord), before[account]? = some record →
          account ∈ h ∧ after.1.accounts[account]? =
            some { record with balances := (h.inventory account).balances { commas := true } }) ∧
        (∀ account : Account, before[account]? = none → after.1.accounts[account]? = none) ∧
        after.2 = (before.keys.filter fun account => !(h.inventory account).isEmpty).length := by
  have hnames : ∀ d ∈ wallet, ∀ a ∈ d.reported, ' ' ∉ a.toList := by decide +kernel
  obtain ⟨h, hh⟩ : ∃ h, Holdings.realized wallet = .exact h := by decide +kernel
  have hvalue : (Holdings.realized wallet).value? = some h := by rw [hh, Checked.value?_exact]
  exact ⟨h, hnames, hvalue, addReport_balanceLines { commas := true } false hnames hvalue⟩

end DoubleEntry
