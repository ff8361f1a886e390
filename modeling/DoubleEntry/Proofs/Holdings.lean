import DoubleEntry.Directive
import DoubleEntry.Holdings
import DoubleEntry.Proofs.Inventory

/-!
# What accounts hold

The units of a currency in all accounts with a property (`Holdings.total`) are what postings have
put there (`posted`), as long as no addition rounds. The order of the postings does not matter then.

* `Holdings.total_addPostings`: what postings add to a total.
* `Holdings.value_subtreeUnits`: the units of a subtree are a total.
-/

namespace DoubleEntry

/-! ## Maps -/

section Entries

variable {κ α : Type} [Ord κ] {m : Std.TreeMap κ α} {key : κ} {a : α}

theorem values_eq_map_toList (m : Std.TreeMap κ α) : m.values = m.toList.map (·.2) := by
  change m.inner.inner.values = (Std.DTreeMap.Internal.Impl.Const.toList m.inner.inner).map (·.2)
  rw [Std.DTreeMap.Internal.Impl.values_eq_map_snd,
    Std.DTreeMap.Internal.Impl.Const.toList_eq_toListModel_map, List.map_map]
  rfl

variable [DecidableEq κ] [Std.TransOrd κ] [Std.LawfulEqOrd κ]

/-- An entry and those of the other keys. -/
theorem toList_perm_of_getElem? (h : m[key]? = some a) :
    m.toList.Perm ((key, a) :: m.toList.filter fun e => ¬key == e.1) := by
  have heq : (m.insert key a).toList = m.toList := by
    refine (Std.TreeMap.Equiv.of_forall_constGet?_eq fun k => ?_).toList_eq
    rw [Std.TreeMap.getElem?_insert]
    split
    · rename_i hk
      rw [← Std.LawfulEqCmp.eq_of_compare hk, h]
    · rfl
  have hperm := Std.TreeMap.toList_insert_perm (t := m) (k := key) (v := a)
  rwa [heq] at hperm

/-- Leaving out a key that is not there leaves out nothing. -/
theorem filter_toList_of_getElem? (h : m[key]? = none) :
    m.toList.filter (fun e => ¬key == e.1) = m.toList := by
  refine List.filter_eq_self.2 fun e he => ?_
  have hne : key ≠ e.1 := by
    rintro rfl
    rw [Std.TreeMap.mem_toList_iff_getElem?_eq_some.1 he] at h
    cases h
  simpa using hne

/-- The entry of one key, if it has any, and those of the others. -/
theorem toList_perm_split (m : Std.TreeMap κ α) (key : κ) :
    m.toList.Perm
      ((m[key]?).toList.map (key, ·) ++ m.toList.filter fun e => ¬key == e.1) := by
  cases h : m[key]? with
  | none => rw [filter_toList_of_getElem? h]; rfl
  | some a => exact toList_perm_of_getElem? h

end Entries

/-- The postings of a transaction; other directives have none. -/
def Directive.postings (d : Directive) : List Posting := d.transaction?.elim [] (·.postings)

theorem Directive.postings_of_transaction {d : Directive} {t : Transaction}
    (h : d.body = .transaction t) : d.postings = t.postings := by
  simp [postings, transaction?, h]

theorem Directive.postings_eq_nil {d : Directive} (h : ∀ t, d.body ≠ .transaction t) :
    d.postings = [] := by
  unfold postings transaction?
  split
  · rename_i t hbody
    exact absurd hbody (h t)
  · rfl

/-- The number of units that a posting moves in a currency, if its account has the property. -/
def Posting.moved (p : Posting) (P : Account → Bool) (c : Currency) : ℚ :=
  if P p.account then p.amount?.elim 0 (·.inCurrency c) else 0

/-- The units of a currency that postings move into the accounts with a property. -/
def posted (ps : List Posting) (P : Account → Bool) (c : Currency) : ℚ :=
  (ps.map (·.moved P c)).sum

variable {P : Account → Bool} {c : Currency} {ps qs : List Posting}

@[simp] theorem posted_nil : posted [] P c = 0 := rfl

@[simp] theorem posted_cons (p : Posting) :
    posted (p :: ps) P c = p.moved P c + posted ps P c := rfl

@[simp] theorem posted_append : posted (ps ++ qs) P c = posted ps P c + posted qs P c := by
  simp [posted]

/-- What is posted does not depend on the order of the postings. -/
theorem posted_perm (h : ps.Perm qs) : posted ps P c = posted qs P c := (h.map _).sum_eq

/-- Postings to other accounts move nothing. -/
theorem posted_eq_zero (h : ∀ p ∈ ps, ¬P p.account) : posted ps P c = 0 := by
  refine List.sum_eq_zero fun x hx => ?_
  obtain ⟨p, hp, rfl⟩ := List.mem_map.1 hx
  exact if_neg (h p hp)

/-- Directives that move nothing in question do not count. -/
theorem posted_filter {ds : List Directive} {q : Directive → Bool}
    (h : ∀ d ∈ ds, ¬q d → posted d.postings P c = 0) :
    posted ((ds.filter q).flatMap Directive.postings) P c =
      posted (ds.flatMap Directive.postings) P c := by
  induction ds with
  | nil => rfl
  | cons d ds ih =>
    obtain ⟨hd, hds⟩ := List.forall_mem_cons.1 h
    rw [List.flatMap_cons, posted_append, ← ih hds]
    by_cases hq : q d
    · rw [List.filter_cons_of_pos hq, List.flatMap_cons, posted_append]
    · rw [List.filter_cons_of_neg hq, hd hq, zero_add]

/-- Entries that move nothing one by one move nothing together. -/
theorem posted_flatMap_eq_zero {ds : List Directive}
    (h : ∀ d ∈ ds, posted d.postings P c = 0) : posted (ds.flatMap Directive.postings) P c = 0 := by
  induction ds with
  | nil => rfl
  | cons d ds ih =>
    obtain ⟨hd, hds⟩ := List.forall_mem_cons.1 h
    rw [List.flatMap_cons, posted_append, hd, ih hds, add_zero]

namespace Holdings

/-- No inventory has two positions in one currency. -/
def Distinct (h : Holdings) : Prop := ∀ account, (h.inventory account).Distinct

/-- The units of a currency in the accounts with a property. -/
def total (h : Holdings) (P : Account → Bool) (c : Currency) : ℚ :=
  ((h.toList.filter fun e => P e.1).map fun e => (e.2.units c).value).sum

/-- Giving an account an inventory leaves the other accounts alone. -/
theorem inventory_insert (h : Holdings) (account a : Account) (inv : Inventory) :
    inventory (h.insert account inv) a = if account = a then inv else h.inventory a := by
  simp [inventory, Std.TreeMap.getD_insert]

theorem distinct_empty : Distinct {} := fun _ => Inventory.distinct_empty

theorem Distinct.insert {h : Holdings} (hd : h.Distinct) {account : Account} {inv : Inventory}
    (hi : inv.Distinct) : Distinct (h.insert account inv) := by
  intro a
  rw [inventory_insert]
  split
  · exact hi
  · exact hd a

/-! ## Totals -/

/-- The accounts other than one, with what they hold. -/
def others (h : Holdings) (account : Account) : List (Account × Inventory) :=
  h.toList.filter fun e => ¬account == e.1

/-- An account that gets an inventory stands beside the others. -/
theorem toList_insert_perm (h : Holdings) (account : Account) (inv : Inventory) :
    (h.insert account inv).toList.Perm ((account, inv) :: h.others account) :=
  Std.TreeMap.toList_insert_perm

theorem toList_perm {h : Holdings} {account : Account} {inv : Inventory}
    (ha : h[account]? = some inv) : h.toList.Perm ((account, inv) :: h.others account) :=
  toList_perm_of_getElem? ha

theorem others_eq_toList {h : Holdings} {account : Account} (ha : h[account]? = none) :
    h.others account = h.toList :=
  filter_toList_of_getElem? ha

theorem filter_others (h : Holdings) (account : Account) :
    ((h.others account).filter fun e => e.1 == account) = [] := by
  refine List.filter_eq_nil_iff.2 fun e he => ?_
  have hne : account ≠ e.1 := by simpa using (List.mem_filter.1 he).2
  simpa using hne.symm

/-- A total, split into what one account holds and the rest. -/
theorem total_split (h : Holdings) (account : Account) (P : Account → Bool) (c : Currency) :
    h.total P c = (if P account then ((h.inventory account).units c).value else 0) +
      (((h.others account).filter fun e => P e.1).map fun e => (e.2.units c).value).sum := by
  unfold total inventory
  rw [Std.TreeMap.getD_eq_getD_getElem?]
  cases ha : h[account]? with
  | none => simp [others_eq_toList ha, Inventory.units]
  | some inv =>
    rw [(((toList_perm ha).filter _).map _).sum_eq, List.filter_cons]
    split <;> simp_all

/-- A total changes by what the inventory of the account gains, if the account counts. -/
theorem total_insert (h : Holdings) (account : Account) (inv : Inventory) (P : Account → Bool)
    (c : Currency) :
    total (h.insert account inv) P c = h.total P c +
      if P account then (inv.units c).value - ((h.inventory account).units c).value else 0 := by
  have hperm := toList_insert_perm h account inv
  rw [total_split h account P c]
  unfold total
  rw [((hperm.filter _).map _).sum_eq, List.filter_cons]
  split
  · simp only [List.map_cons, List.sum_cons]
    ring
  · simp

@[simp] theorem total_empty (P : Account → Bool) (c : Currency) : total {} P c = 0 := rfl

/-- What one account holds, as a total. -/
theorem total_singleton (h : Holdings) (account : Account) (c : Currency) :
    h.total (· == account) c = ((h.inventory account).units c).value := by
  rw [total_split h account, filter_others]
  simp

/-- The units of an account and those below it, if their sum is exact. -/
theorem value_subtreeUnits {h : Holdings} {account : Account} {c : Currency} {t : Decimal}
    (ht : h.subtreeUnits account c = .exact t) :
    t.value = h.total (Account.isWithin · account) c := by
  rw [Decimal.value_sum ht, total, List.map_map]
  rfl

/-! ## Additions -/

/-- Adding to an account changes its inventory only. -/
theorem add_eq_exact {h h' : Holdings} {account : Account} {a : Amount}
    (ha : h.add account a = .exact h') :
    ∃ inv, (h.inventory account).add a = .exact inv ∧ h' = h.insert account inv := by
  obtain ⟨inv, hinv, hh⟩ := Checked.bind_eq_exact.1 ha
  exact ⟨inv, hinv, (Checked.exact.inj hh).symm⟩

theorem distinct_add {strict : Bool} {h h' : Holdings} {account : Account} {a : Amount}
    (hd : h.Distinct) (ha : (h.add account a).Gives strict h') : h'.Distinct := by
  obtain ⟨inv, hinv, hh⟩ := Checked.bind_gives.1 ha
  obtain rfl := Checked.exact_gives.1 hh
  exact hd.insert (Inventory.distinct_add (hd account) hinv)

/-- An amount that is added to an account counts for the totals with that account. -/
theorem total_add {h h' : Holdings} {account : Account} {a : Amount} (hd : h.Distinct)
    (ha : h.add account a = .exact h') (P : Account → Bool) (c : Currency) :
    h'.total P c = h.total P c + if P account then a.inCurrency c else 0 := by
  obtain ⟨inv, hinv, rfl⟩ := add_eq_exact ha
  rw [total_insert, Inventory.units_add (hd account) hinv, add_sub_cancel_left]

@[simp] theorem addPostings_nil (h : Holdings) : h.addPostings [] = .exact h := rfl

/-- Postings may be taken in in two goes. -/
theorem addPostings_append (h : Holdings) (ps qs : List Posting) :
    h.addPostings (ps ++ qs) = h.addPostings ps >>= (·.addPostings qs) :=
  List.foldlM_append

/-- What postings leave behind when no addition rounds. -/
theorem addPostings_eq_exact {h h' : Holdings} {ps : List Posting} (hd : h.Distinct)
    (ha : h.addPostings ps = .exact h') :
    h'.Distinct ∧ ∀ P c, h'.total P c = h.total P c + posted ps P c := by
  refine Checked.foldlM_invariant
    (fun seen g => g.Distinct ∧ ∀ P c, g.total P c = h.total P c + posted seen P c)
    ⟨hd, by simp⟩ ?_ (Checked.gives_true.2 ha)
  rintro seen g p g' ⟨hg, htotal⟩ hp
  cases hamount : p.amount? with
  | none =>
    obtain rfl : g = g' := by simpa [hamount] using hp
    exact ⟨hg, fun P c => by simp [htotal, Posting.moved, hamount]⟩
  | some a =>
    have hadd : g.add p.account a = .exact g' := by simpa [hamount] using hp
    refine ⟨distinct_add hg (Checked.gives_true.2 hadd), fun P c => ?_⟩
    rw [total_add hg hadd, htotal, posted_append]
    simp [Posting.moved, hamount, add_assoc]

/-- What postings to empty accounts leave behind when no addition rounds. -/
theorem total_addPostings {h : Holdings} {ps : List Posting} (ha : addPostings {} ps = .exact h)
    (P : Account → Bool) (c : Currency) : h.total P c = posted ps P c := by
  simpa using (addPostings_eq_exact distinct_empty ha).2 P c

/-- No position of any account is zero. -/
def HasNoZeros (h : Holdings) : Prop := ∀ account, (h.inventory account).HasNoZeros

/-- Postings leave no zeros behind. -/
theorem hasNoZeros_addPostings {strict : Bool} {h h' : Holdings} {ps : List Posting}
    (hz : h.HasNoZeros) (ha : (h.addPostings ps).Gives strict h') : h'.HasNoZeros := by
  refine Checked.foldlM_invariant (fun _ (g : Holdings) => g.HasNoZeros) hz ?_ ha
  rintro _ g p g' hg hp
  cases hamount : p.amount? with
  | none =>
    rw [hamount, Option.elim_none, Checked.pure_eq, Checked.exact_gives] at hp
    exact hp ▸ hg
  | some a =>
    rw [hamount, Option.elim_some] at hp
    obtain ⟨inv, hinv, hp⟩ := Checked.bind_gives.1 hp
    obtain rfl := Checked.exact_gives.1 hp
    intro account
    rw [inventory_insert]
    split
    · exact Inventory.hasNoZeros_add (hg p.account) hinv
    · exact hg account

/-- The entries of a map tell the inventories of their accounts. -/
theorem inventory_of_mem {h : Holdings} {e : Account × Inventory} (he : e ∈ h.toList) :
    h.inventory e.1 = e.2 := by
  rw [inventory, Std.TreeMap.getD_eq_getD_getElem?,
    Std.TreeMap.mem_toList_iff_getElem?_eq_some.1 he, Option.getD_some]

/-- The directives, in some order, have moved what the accounts hold; if strict, without
rounding. -/
def MovedBy (strict : Bool) (h : Holdings) (ds : List Directive) : Prop :=
  ∃ moved : List Directive, moved.Perm ds ∧
    (addPostings {} (moved.flatMap Directive.postings)).Gives strict h

theorem MovedBy.distinct {h : Holdings} {ds : List Directive} (hm : h.MovedBy true ds) :
    h.Distinct := by
  obtain ⟨moved, -, hh⟩ := hm
  exact (addPostings_eq_exact distinct_empty (Checked.gives_true.1 hh)).1

/-- What accounts hold after some entries, in whichever order, is what these post to them. -/
theorem MovedBy.total {h : Holdings} {ds : List Directive} (hm : h.MovedBy true ds)
    (P : Account → Bool) (c : Currency) :
    h.total P c = posted (ds.flatMap Directive.postings) P c := by
  obtain ⟨moved, hperm, hh⟩ := hm
  rw [total_addPostings (Checked.gives_true.1 hh)]
  exact posted_perm (hperm.flatMap_right _)

end Holdings

end DoubleEntry
