import DoubleEntry.Proofs.Report.Registry

/-!
# The last lives of accounts

The record of an account is about its last life: the last entry that opens the account starts the
record anew, and the closings that follow each give the day of closing.

* `Registry.getElem?_foldl_addEntry`: the record of one account, told without those of the others.
* `AccountRecord.foldl_after`: what entries that do not open the account make of its record.
* `AccountRecord.OfLastLife`: a record of the last life of an account.
* `Summary.accounts_of_last_lives`: the records of a ledger.
-/

namespace DoubleEntry

namespace AccountRecord

variable {account : Account} {entries : List Directive} {record : AccountRecord}

/-- What an entry makes of the record of an account. -/
def after (account : Account) (record : Option AccountRecord) (d : Directive) :
    Option AccountRecord :=
  match d.body with
  | .opening a currencies _ =>
    if a = account ∧ a ≠ "" then some { opened := d.date, currencies } else record
  | .closing a =>
    if a = account then record.map fun record => { record with closed := some d.date } else record
  | _ => record

theorem after_of_not_opens {d : Directive} (h : ¬d.opens account)
    (record : Option AccountRecord) :
    after account record d =
      if d.closes account then record.map fun record => { record with closed := some d.date }
      else record := by
  obtain ⟨date, metadata, body⟩ := d
  cases body with
  | opening a currencies booking =>
    have hne : a ≠ account := by simpa [Directive.opens] using h
    simp [after, Directive.closes, hne]
  | closing a => simp [after, Directive.closes]
  | _ => simp [after, Directive.closes]

/-- Entries that do not open an account change only the day of its closing, which is that of the
last entry that closes it. -/
theorem foldl_after (h : ∀ d ∈ entries, ¬d.opens account) (record : Option AccountRecord) :
    entries.foldl (after account) record = record.map fun record =>
      { record with
        closed :=
          ((entries.filter (·.closes account)).getLast?.map (·.date)).or record.closed } := by
  induction entries using List.reverseRecOn with
  | nil => simp
  | append_singleton entries d ih =>
    obtain ⟨hentries, hd⟩ := List.forall_mem_append.1 h
    rw [List.foldl_concat, ih hentries, after_of_not_opens (hd d (by simp))]
    cases record <;> cases hcloses : d.closes account <;> simp [hcloses]

/-- The record tells of the last life of the account in some entries: it was started by the last
entry that opens the account, and has the day of the last closing after that, if there is one. -/
def OfLastLife (account : Account) (entries : List Directive) (record : AccountRecord) : Prop :=
  ∃ before o after booking, entries = before ++ o :: after ∧
    o.body = .opening account record.currencies booking ∧ o.date = record.opened ∧
    (∀ d ∈ after, ¬d.opens account) ∧
    (after.filter (·.closes account)).getLast?.map (·.date) = record.closed ∧
    record.balances = []

theorem foldl_after_of_lastLife (hname : account ≠ "") (h : record.OfLastLife account entries)
    (older : Option AccountRecord) : entries.foldl (after account) older = some record := by
  obtain ⟨before, o, rest, booking, rfl, hbody, hopened, hrest, hclosed, hbalances⟩ := h
  obtain ⟨opened, closed, currencies, balances⟩ := record
  have ho (older : Option AccountRecord) :
      after account older o = some { opened, currencies } := by
    simp [after, hbody, hname, hopened]
  subst hclosed hbalances
  rw [List.foldl_append, List.foldl_cons, ho, foldl_after hrest]
  simp

/-- An account that is opened at all has a last life. -/
theorem exists_ofLastLife (h : ∃ d ∈ entries, d.opens account) :
    ∃ record : AccountRecord, record.OfLastLife account entries := by
  obtain ⟨o, ho⟩ : ∃ o, entries.reverse.find? (·.opens account) = some o := by
    rw [← Option.isSome_iff_exists, List.find?_isSome]
    simpa using h
  obtain ⟨hopens, rest, before, hentries, hrest⟩ := List.find?_eq_some_iff_append.1 ho
  rw [List.reverse_eq_iff, List.reverse_append, List.reverse_cons, List.append_assoc] at hentries
  obtain ⟨date, metadata, body⟩ := o
  cases body with
  | opening a currencies booking =>
    obtain rfl : a = account := by simpa [Directive.opens] using hopens
    exact ⟨⟨date, _, currencies, []⟩, before.reverse, _, rest.reverse, booking, hentries, rfl, rfl,
      by simpa using hrest, rfl, rfl⟩
  | _ => simp [Directive.opens] at hopens

end AccountRecord

/-! ## Records of a summary -/

namespace Registry

/-- What an entry does to the record of an account, it does whatever the other records are. -/
theorem getElem?_addEntry (r : Registry) (d : Directive) (account : Account) :
    (r.addEntry d)[account]? = AccountRecord.after account r[account]? d := by
  obtain ⟨date, metadata, body⟩ := d
  cases body with
  | opening a currencies booking =>
    simp only [addEntry, opening, AccountRecord.after]
    by_cases hname : a = ""
    · simp [hname]
    · simp [hname, Std.TreeMap.getElem?_insert]
  | closing a =>
    simp only [addEntry, closing?, update?, AccountRecord.after]
    by_cases ha : a = account
    · subst ha
      cases h : r[a]? <;> simp [h]
    · cases h : r[a]? <;> simp [ha, Std.TreeMap.getElem?_insert]
  | _ => rfl

theorem getElem?_foldl_addEntry (r : Registry) (entries : List Directive) (account : Account) :
    (entries.foldl addEntry r)[account]? =
      entries.foldl (AccountRecord.after account) r[account]? := by
  induction entries generalizing r with
  | nil => rfl
  | cons d entries ih => rw [List.foldl_cons, ih, getElem?_addEntry, List.foldl_cons]

end Registry

namespace Summary

theorem getElem?_accounts (texts : Bool) (entries : List Directive) (account : Account) :
    (ofEntries texts entries).accounts[account]? =
      entries.foldl (AccountRecord.after account) none := by
  rw [ofEntries_eq, Registry.getElem?_foldl_addEntry, Std.TreeMap.getElem?_emptyc]

/-- The accounts with a record are those with a name that some entry opens. The record of an
account is that of its last life, and the closing of another account, or of one that has no record,
does not change it. -/
theorem accounts_of_last_lives (texts : Bool) (entries : List Directive) (account : Account) :
    (account ∈ (ofEntries texts entries).accounts ↔
      account ≠ "" ∧ ∃ d ∈ entries, d.opens account) ∧
    (∀ record : AccountRecord, (ofEntries texts entries).accounts[account]? = some record ↔
      account ≠ "" ∧ record.OfLastLife account entries) ∧
    ∀ (before after : List Directive) (k : Directive) (other : Account),
      entries = before ++ k :: after → k.body = .closing other →
      (other ≠ account ∨ other ∉ (ofEntries texts before).accounts) →
      (ofEntries texts (before ++ after)).accounts[account]? =
        (ofEntries texts entries).accounts[account]? := by
  refine ⟨mem_accounts_iff, fun record => ?_, fun before after k other hentries hbody hother => ?_⟩
  · rw [getElem?_accounts]
    constructor
    · intro hrecord
      have hmem : account ∈ (ofEntries texts entries).accounts := by
        rw [Std.TreeMap.mem_iff_isSome_getElem?, getElem?_accounts, hrecord]
        rfl
      obtain ⟨hname, hopens⟩ := mem_accounts_iff.1 hmem
      obtain ⟨last, hlast⟩ := AccountRecord.exists_ofLastLife hopens
      obtain rfl : last = record := by
        rw [AccountRecord.foldl_after_of_lastLife hname hlast] at hrecord
        exact Option.some.inj hrecord
      exact ⟨hname, hlast⟩
    · rintro ⟨hname, hlast⟩
      exact AccountRecord.foldl_after_of_lastLife hname hlast none
  · -- The closing leaves the record that the entries before it leave.
    have hstep : AccountRecord.after account (before.foldl (AccountRecord.after account) none) k =
        before.foldl (AccountRecord.after account) none := by
      obtain hne | hunknown := hother
      · simp [AccountRecord.after, hbody, hne]
      · rw [Std.TreeMap.mem_iff_isSome_getElem?, getElem?_accounts] at hunknown
        by_cases hsame : other = account
        · subst hsame
          rw [Option.not_isSome_iff_eq_none.1 hunknown]
          simp [AccountRecord.after, hbody]
        · simp [AccountRecord.after, hbody, hsame]
    rw [getElem?_accounts, getElem?_accounts, hentries, List.foldl_append, List.foldl_append,
      List.foldl_cons, hstep]

end Summary

end DoubleEntry
