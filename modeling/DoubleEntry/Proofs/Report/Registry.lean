import DoubleEntry.Proofs.Lifetimes
import DoubleEntry.Proofs.Summary.Parts

/-!
# Records of accounts

A balance report adds to each record the numbers that its lines state for the account, and changes
nothing else.

* `Registry.getElem?_addReport`, `Registry.count_addReport`: what a report does to the records, and
  how many of its numbers it attaches.
* `Summary.mem_accounts_iff`: exactly the opened accounts with a name have records.
* `Summary.isBlank_accounts`: before any report there are no balances.
-/

namespace DoubleEntry

/-- The record with more balances. -/
def AccountRecord.withBalances (record : AccountRecord) (numbers : List String) : AccountRecord :=
  { record with balances := record.balances ++ numbers }

namespace Registry

variable {counted : Registry × Nat} {r : Registry} {b : BalanceLine} {lines : List BalanceLine}
  {account : Account}

/-! ## Reports -/

/-- Adds a balance that was read, and counts it if its account is known. -/
def addBalance (counted : Registry × Nat) (b : BalanceLine) : Registry × Nat :=
  match counted.1.addBalance? b with
  | some r => (r, counted.2 + 1)
  | none => counted

/-- A report is taken in line by line, as far as its lines are read as balances. -/
theorem addReport_eq (r : Registry) (texts : List String) :
    r.addReport texts = (texts.filterMap BalanceLine.ofText?).foldl addBalance (r, 0) := by
  rw [List.foldl_filterMap, addReport]
  congr 1
  funext counted text
  unfold addLine addBalance
  cases BalanceLine.ofText? text <;> rfl

theorem addBalance_of_mem {record : AccountRecord} (h : counted.1[b.account]? = some record) :
    addBalance counted b =
      (counted.1.insert b.account (record.withBalances [b.number]), counted.2 + 1) := by
  simp [addBalance, addBalance?, update?, h, AccountRecord.withBalances]

/-- The balance of an account without a record is not counted. -/
theorem addBalance_of_not_mem (h : counted.1[b.account]? = none) :
    addBalance counted b = counted := by
  simp [addBalance, addBalance?, update?, h]

/-- A balance changes the record of its account, if there is one. -/
theorem getElem?_addBalance (counted : Registry × Nat) (b : BalanceLine) (account : Account) :
    (addBalance counted b).1[account]? =
      counted.1[account]?.map fun record =>
        if b.account = account then record.withBalances [b.number] else record := by
  cases h : counted.1[b.account]? with
  | none =>
    rw [addBalance_of_not_mem h]
    by_cases hb : b.account = account
    · rw [← hb, h, Option.map_none]
    · simp [hb]
  | some record =>
    rw [addBalance_of_mem h, Std.TreeMap.getElem?_insert]
    by_cases hb : b.account = account
    · subst hb
      simp [h]
    · simp [hb]

/-- A balance opens no account. -/
theorem mem_addBalance_iff : account ∈ (addBalance counted b).1 ↔ account ∈ counted.1 := by
  simp only [Std.TreeMap.mem_iff_isSome_getElem?, getElem?_addBalance, Option.isSome_map]

theorem count_addBalance (counted : Registry × Nat) (b : BalanceLine) :
    (addBalance counted b).2 = counted.2 + if b.account ∈ counted.1 then 1 else 0 := by
  cases h : counted.1[b.account]? with
  | none => simp [addBalance_of_not_mem h, Std.TreeMap.mem_iff_isSome_getElem?, h]
  | some record => simp [addBalance_of_mem h, Std.TreeMap.mem_iff_isSome_getElem?, h]

/-- The numbers that some lines state for an account. -/
def stated (account : Account) (lines : List BalanceLine) : List String :=
  (lines.filter (·.account = account)).map (·.number)

/-- After some lines, a record has gained the numbers that these state for its account. -/
theorem getElem?_foldl_addBalance (counted : Registry × Nat) (lines : List BalanceLine)
    (account : Account) :
    (lines.foldl addBalance counted).1[account]? =
      counted.1[account]?.map (·.withBalances (stated account lines)) := by
  induction lines generalizing counted with
  | nil => simp [stated, AccountRecord.withBalances]
  | cons b lines ih =>
    rw [List.foldl_cons, ih, getElem?_addBalance, Option.map_map]
    congr 1
    funext record
    by_cases hb : b.account = account <;> simp [stated, hb, AccountRecord.withBalances]

theorem count_foldl_addBalance (counted : Registry × Nat) (lines : List BalanceLine) :
    (lines.foldl addBalance counted).2 =
      counted.2 + (lines.filter (·.account ∈ counted.1)).length := by
  induction lines generalizing counted with
  | nil => rfl
  | cons b lines ih =>
    rw [List.foldl_cons, ih, count_addBalance, List.filter_cons]
    simp only [mem_addBalance_iff]
    split <;> simp_all [Nat.add_assoc, Nat.add_comm]

/-- A report adds to each record the numbers that its lines state for the account. -/
theorem getElem?_addReport (r : Registry) (texts : List String) (account : Account) :
    (r.addReport texts).1[account]? = r[account]?.map
      (·.withBalances (stated account (texts.filterMap BalanceLine.ofText?))) := by
  rw [addReport_eq, getElem?_foldl_addBalance]

/-- A report counts the lines that are about known accounts. -/
theorem count_addReport (r : Registry) (texts : List String) :
    (r.addReport texts).2 =
      ((texts.filterMap BalanceLine.ofText?).filter (·.account ∈ r)).length := by
  rw [addReport_eq, count_foldl_addBalance, Nat.zero_add]

/-! ## Openings and closings -/

/-- An account without a name gets no record. -/
theorem mem_opening_iff {a : Account} {date : Date} {currencies : List Currency} :
    account ∈ r.opening a date currencies ↔ account ≠ "" ∧ a = account ∨ account ∈ r := by
  unfold opening
  split
  · rename_i ha
    have hnot : ¬(account ≠ "" ∧ a = account) := fun h => h.1 (h.2 ▸ ha)
    rw [or_iff_right hnot]
  · rename_i ha
    rw [Std.TreeMap.mem_insert, Std.LawfulEqCmp.compare_eq_iff_eq]
    exact or_congr_left ⟨fun h => ⟨h ▸ ha, h⟩, And.right⟩

/-- Closing keeps the record. -/
theorem mem_closing_iff {a : Account} {date : Date} :
    account ∈ (r.closing? a date).getD r ↔ account ∈ r := by
  unfold closing? update?
  cases h : r[a]? with
  | none => rfl
  | some record =>
    rw [Option.map_some, Option.getD_some, Std.TreeMap.mem_insert,
      Std.LawfulEqCmp.compare_eq_iff_eq, or_iff_right_of_imp]
    rintro rfl
    simp [Std.TreeMap.mem_iff_isSome_getElem?, h]

/-- No account has a balance. -/
def IsBlank (r : Registry) : Prop :=
  ∀ (account : Account) (record : AccountRecord), r[account]? = some record → record.balances = []

theorem IsBlank.insert {record : AccountRecord} (h : r.IsBlank) (hrecord : record.balances = [])
    (a : Account) : IsBlank (r.insert a record) := by
  intro account other hother
  rw [Std.TreeMap.getElem?_insert] at hother
  split at hother
  · obtain rfl := Option.some.inj hother
    exact hrecord
  · exact h account other hother

theorem IsBlank.opening (h : r.IsBlank) (a : Account) (date : Date) (currencies : List Currency) :
    (r.opening a date currencies).IsBlank := by
  unfold Registry.opening
  split
  · exact h
  · exact h.insert rfl a

theorem IsBlank.closing (h : r.IsBlank) (a : Account) (date : Date) :
    ((r.closing? a date).getD r).IsBlank := by
  unfold closing? update?
  cases hrecord : r[a]? with
  | none => exact h
  | some record =>
    have hclosed : { record with closed := some date }.balances = [] := h a record hrecord
    exact h.insert hclosed a

/-! ## Entries -/

theorem mem_addEntry_iff {d : Directive} :
    account ∈ r.addEntry d ↔ account ≠ "" ∧ d.opens account ∨ account ∈ r := by
  obtain ⟨date, metadata, body⟩ := d
  cases body with
  | opening a currencies booking => simpa [addEntry, Directive.opens] using mem_opening_iff
  | closing a => simpa [addEntry, Directive.opens] using mem_closing_iff
  | _ => simp [addEntry, Directive.opens]

/-- Entries state no balances. -/
theorem IsBlank.addEntry (h : r.IsBlank) (d : Directive) : (r.addEntry d).IsBlank := by
  unfold Registry.addEntry
  split
  · exact h.opening _ _ _
  · exact h.closing _ _
  · exact h

end Registry

/-! ## The records of a summary -/

namespace Summary

variable {texts : Bool} {entries : List Directive} {account : Account}

/-- Exactly the opened accounts with a name have records. -/
theorem mem_accounts_iff :
    account ∈ (ofEntries texts entries).accounts ↔
      account ≠ "" ∧ ∃ d ∈ entries, d.opens account := by
  suffices ∀ r : Registry, account ∈ entries.foldl Registry.addEntry r ↔
      (account ≠ "" ∧ ∃ d ∈ entries, d.opens account) ∨ account ∈ r by
    rw [ofEntries_eq, this {}, or_iff_left Std.TreeMap.not_mem_emptyc]
  induction entries with
  | nil => simp
  | cons d entries ih =>
    intro r
    rw [List.foldl_cons, ih, Registry.mem_addEntry_iff]
    simp only [List.mem_cons, exists_eq_or_imp, and_or_left]
    rw [or_left_comm, or_assoc]

/-- Before any report there are no balances. -/
theorem isBlank_accounts (texts : Bool) (entries : List Directive) :
    (ofEntries texts entries).accounts.IsBlank := by
  suffices ∀ r : Registry, r.IsBlank → (entries.foldl Registry.addEntry r).IsBlank by
    rw [ofEntries_eq]
    exact this {} (by simp [Registry.IsBlank])
  induction entries with
  | nil => exact fun r hr => hr
  | cons d entries ih => exact fun r hr => ih _ (hr.addEntry d)

end Summary

end DoubleEntry
