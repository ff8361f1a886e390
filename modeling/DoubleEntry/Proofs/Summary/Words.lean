import DoubleEntry.Proofs.Summary.Parts

/-!
# The vocabulary of a ledger

The sets of names hold exactly what the transactions of a ledger say. So neither the order of the
entries nor how often they are repeated matters, and whether texts are wanted decides about payees
and narrations alone.

* `Vocabulary.Of`: the names that some transactions use, set by set; `Vocabulary.of_foldl` says that
  they are collected.
* `Vocabulary.foldl_addTransaction_false`: what is collected without texts.
* `Summary.vocabulary_of_transactions`: the vocabulary of a ledger.
-/

namespace DoubleEntry

/-- The units of the posting name the currency, with a number or without. -/
def Posting.NamesCurrency (p : Posting) (currency : Currency) : Prop :=
  (∃ n, p.units = some (.complete ⟨n, currency⟩)) ∨ p.units = some (.currencyOnly currency)

/-- The narration starts like that of a padding transaction. -/
def Transaction.NarratesPadding (t : Transaction) : Prop :=
  "(Padding inserted".toList <+: t.narration.toList

theorem Posting.namesCurrency_iff {p : Posting} {currency : Currency} :
    p.NamesCurrency currency ↔ p.units.bind (·.currency?) = some currency := by
  unfold NamesCurrency
  cases p.units with
  | none => simp
  | some units =>
    cases units with
    | complete a =>
      obtain ⟨n, c⟩ := a
      simp [Units.currency?]
    | numberOnly n => simp [Units.currency?]
    | currencyOnly c => simp [Units.currency?]

theorem Transaction.isPadding_iff {t : Transaction} : t.isPadding ↔ t.NarratesPadding :=
  List.isPrefixOf_iff_prefix

namespace Vocabulary

variable {v w : Vocabulary} {texts : Bool} {t : Transaction} {ts ts' : List Transaction}
  {name : String}

/-- The vocabulary has the names that some transactions use. -/
structure Of (texts : Bool) (ts : List Transaction) (v : Vocabulary) : Prop where
  commodities : ∀ name, name ∈ v.commodities ↔
    name ≠ "" ∧ ∃ t ∈ ts, ∃ p ∈ t.postings, p.NamesCurrency name
  payees : ∀ name, name ∈ v.payees ↔
    texts ∧ name ∉ ["", "None"] ∧ ∃ t ∈ ts, t.payee = some name
  narrations : ∀ name, name ∈ v.narrations ↔
    texts ∧ name ∉ ["", "None"] ∧ ∃ t ∈ ts, ¬t.NarratesPadding ∧ t.narration = name
  tags : ∀ name, name ∈ v.tags ↔ ∃ t ∈ ts, ¬t.NarratesPadding ∧ name ∈ t.tags
  links : ∀ name, name ∈ v.links ↔ ∃ t ∈ ts, ¬t.NarratesPadding ∧ name ∈ t.links

/-! ## One transaction -/

theorem mem_currencies_iff :
    name ∈ currencies t ↔ name ≠ "" ∧ ∃ p ∈ t.postings, p.NamesCurrency name := by
  simp [currencies, Posting.namesCurrency_iff, and_comm]

/-- A transaction adds the currencies that its postings name. -/
theorem mem_commodities_addTransaction : name ∈ (v.addTransaction texts t).commodities ↔
    name ∈ v.commodities ∨ name ≠ "" ∧ ∃ p ∈ t.postings, p.NamesCurrency name := by
  rw [addTransaction, Std.TreeSet.mem_insertMany_list, List.contains_iff_mem, mem_currencies_iff]

/-- Payees are taken from transactions only where texts are asked for. -/
theorem mem_payees_addTransaction : name ∈ (v.addTransaction texts t).payees ↔
    name ∈ v.payees ∨ texts ∧ name ≠ "" ∧ t.payee = some name := by
  rw [addTransaction, Std.TreeSet.mem_insertMany_list, List.contains_iff_mem]
  cases texts <;> simp [and_comm]

/-- So are narrations, but for those of padding. -/
theorem mem_narrations_addTransaction : name ∈ (v.addTransaction texts t).narrations ↔
    name ∈ v.narrations ∨ texts ∧ name ≠ "" ∧ ¬t.NarratesPadding ∧ t.narration = name := by
  rw [addTransaction, Std.TreeSet.mem_insertMany_list, List.contains_iff_mem,
    ← Transaction.isPadding_iff]
  refine or_congr_right ?_
  by_cases hwanted : texts ∧ ¬t.isPadding
  · rw [if_pos (by simpa using hwanted), List.mem_filter, List.mem_singleton, decide_eq_true_iff]
    constructor
    · rintro ⟨rfl, hne⟩
      exact ⟨hwanted.1, hne, hwanted.2, rfl⟩
    · rintro ⟨-, hne, -, rfl⟩
      exact ⟨rfl, hne⟩
  · rw [if_neg (by simpa using hwanted)]
    exact iff_of_false (by simp) fun h => hwanted ⟨h.1, h.2.2.1⟩

/-- Padding adds no tags. -/
theorem mem_tags_addTransaction : name ∈ (v.addTransaction texts t).tags ↔
    name ∈ v.tags ∨ ¬t.NarratesPadding ∧ name ∈ t.tags := by
  rw [addTransaction, ← Transaction.isPadding_iff]
  cases t.isPadding <;> simp [Std.TreeSet.mem_insertMany_list]

theorem mem_links_addTransaction : name ∈ (v.addTransaction texts t).links ↔
    name ∈ v.links ∨ ¬t.NarratesPadding ∧ name ∈ t.links := by
  rw [addTransaction, ← Transaction.isPadding_iff]
  cases t.isPadding <;> simp [Std.TreeSet.mem_insertMany_list]

/-! ## All transactions -/

/-- If each transaction adds some names to a set, then all of them add their names to it. -/
theorem mem_foldl_addTransaction {field : Vocabulary → Std.TreeSet String}
    {adds : Transaction → Prop}
    (h : ∀ v t, name ∈ field (v.addTransaction texts t) ↔ name ∈ field v ∨ adds t) :
    name ∈ field (ts.foldl (addTransaction · texts) v) ↔
      name ∈ field v ∨ ∃ t ∈ ts, adds t := by
  induction ts generalizing v with
  | nil => simp
  | cons t ts ih => rw [List.foldl_cons, ih, h, or_assoc, List.exists_mem_cons_iff]

theorem mem_eraseMany_blanks {names : Std.TreeSet String} :
    name ∈ names.eraseMany blanks ↔ name ∈ names ∧ name ∉ blanks := by
  have herase : names.eraseMany blanks = (names.erase "").erase "None" := rfl
  rw [herase, Std.TreeSet.mem_erase, Std.TreeSet.mem_erase, Ne, Ne,
    Std.LawfulEqCmp.compare_eq_iff_eq, Std.LawfulEqCmp.compare_eq_iff_eq]
  simp only [blanks, List.mem_cons, List.not_mem_nil, or_false, not_or]
  rw [@eq_comm _ "", @eq_comm _ "None"]
  tauto

/-- The names of transactions are collected, and those that say nothing are dropped. -/
theorem of_foldl (texts : Bool) (ts : List Transaction) :
    Of texts ts (ts.foldl (addTransaction · texts) {}).withoutBlanks where
  commodities name := by
    simp only [withoutBlanks]
    rw [mem_foldl_addTransaction fun _ _ => mem_commodities_addTransaction]
    simp [exists_and_left, and_left_comm]
  payees name := by
    simp only [withoutBlanks, mem_eraseMany_blanks]
    rw [mem_foldl_addTransaction fun _ _ => mem_payees_addTransaction,
      or_iff_right Std.TreeSet.not_mem_emptyc]
    constructor
    · rintro ⟨⟨t, ht, htexts, -, hpayee⟩, hblank⟩
      exact ⟨htexts, hblank, t, ht, hpayee⟩
    · rintro ⟨htexts, hblank, t, ht, hpayee⟩
      exact ⟨⟨t, ht, htexts, List.ne_of_not_mem_cons hblank, hpayee⟩, hblank⟩
  narrations name := by
    simp only [withoutBlanks, mem_eraseMany_blanks]
    rw [mem_foldl_addTransaction fun _ _ => mem_narrations_addTransaction,
      or_iff_right Std.TreeSet.not_mem_emptyc]
    constructor
    · rintro ⟨⟨t, ht, htexts, -, hnarration⟩, hblank⟩
      exact ⟨htexts, hblank, t, ht, hnarration⟩
    · rintro ⟨htexts, hblank, t, ht, hnarration⟩
      exact ⟨⟨t, ht, htexts, List.ne_of_not_mem_cons hblank, hnarration⟩, hblank⟩
  tags name := by
    simp only [withoutBlanks]
    rw [mem_foldl_addTransaction fun _ _ => mem_tags_addTransaction]
    simp
  links name := by
    simp only [withoutBlanks]
    rw [mem_foldl_addTransaction fun _ _ => mem_links_addTransaction]
    simp

/-- The names that transactions use depend only on which transactions there are. -/
theorem Of.of_mem_iff (h : v.Of texts ts) (hts : ∀ t, t ∈ ts ↔ t ∈ ts') : v.Of texts ts' := by
  obtain ⟨hcommodities, hpayees, hnarrations, htags, hlinks⟩ := h
  simp only [hts] at *
  exact ⟨hcommodities, hpayees, hnarrations, htags, hlinks⟩

/-- The sets, each in its order. -/
def names (v : Vocabulary) : List (List String) :=
  [v.commodities, v.payees, v.narrations, v.tags, v.links].map (·.toList)

theorem Of.names_eq (hv : v.Of texts ts) (hw : w.Of texts ts) : v.names = w.names := by
  have heq {s s' : Std.TreeSet String} (hs : ∀ name, name ∈ s ↔ name ∈ s') :
      s.toList = s'.toList := (Std.TreeSet.Equiv.of_forall_mem_iff hs).toList_eq
  have hcommodities := heq fun name => (hv.commodities name).trans (hw.commodities name).symm
  have hpayees := heq fun name => (hv.payees name).trans (hw.payees name).symm
  have hnarrations := heq fun name => (hv.narrations name).trans (hw.narrations name).symm
  have htags := heq fun name => (hv.tags name).trans (hw.tags name).symm
  have hlinks := heq fun name => (hv.links name).trans (hw.links name).symm
  simp only [names, List.map_cons, List.map_nil, hcommodities, hpayees, hnarrations, htags, hlinks]

/-- Without texts, payees and narrations stay as they are, and all else is collected as with them. -/
theorem foldl_addTransaction_false (v : Vocabulary) (ts : List Transaction) :
    ts.foldl (addTransaction · false) v =
      { ts.foldl (addTransaction · true) v with
        payees := v.payees, narrations := v.narrations } := by
  induction ts using List.reverseRecOn with
  | nil => rfl
  | append_singleton ts t ih =>
    rw [List.foldl_concat, List.foldl_concat, ih]
    simp [addTransaction]

end Vocabulary

/-- The vocabulary of a ledger has the names that its transactions use. Entries in another order, or
repeated, give the same sets. Without texts there are no payees and narrations, and the rest of the
summary is the same. -/
theorem Summary.vocabulary_of_transactions (texts : Bool) (entries : List Directive) :
    (ofEntries texts entries).vocabulary.Of texts (entries.filterMap Directive.transaction?) ∧
    (∀ entries' : List Directive, (∀ d, d ∈ entries' ↔ d ∈ entries) →
      (ofEntries texts entries').vocabulary.names = (ofEntries texts entries).vocabulary.names) ∧
    ofEntries false entries =
      { ofEntries true entries with
        vocabulary.payees := {}, vocabulary.narrations := {} } := by
  have hof (entries : List Directive) :
      (ofEntries texts entries).vocabulary.Of texts (entries.filterMap Directive.transaction?) := by
    rw [ofEntries_eq]
    exact Vocabulary.of_foldl texts _
  refine ⟨hof entries, fun entries' h => ?_, ?_⟩
  · refine (hof entries').names_eq ((hof entries).of_mem_iff fun t => ?_)
    simp only [List.mem_filterMap, h]
  · rw [ofEntries_eq, ofEntries_eq, Vocabulary.foldl_addTransaction_false]
    rfl

end DoubleEntry
