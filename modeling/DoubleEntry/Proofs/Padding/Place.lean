import DoubleEntry.Proofs.Order
import DoubleEntry.Proofs.Padding.Run
import DoubleEntry.Proofs.Sample

/-!
# Where padding transactions come to stand

A padding transaction is dated like its pad and sorted like any transaction. So it comes before the
assertion that called for it only if the pad has an earlier date (`padding_before_iff`): on one day,
assertions come before transactions.
-/

namespace DoubleEntry

namespace Padding

variable {strict : Bool} {s : State} {seen : List Directive}

/-- A pad is not dated after an assertion that meets it. -/
theorem date_le_of_padFor? {l before after : List Directive} {d : Directive} {b : Assertion}
    {pad : Active} (hsort : Directive.sort l = before ++ d :: after)
    (hbefore : (run before).Gives strict s) (hpad : s.padFor? b = some pad) :
    pad.entry.date ≤ d.date := by
  have hsorted := Directive.isSorted_sort l
  rw [hsort] at hsorted
  exact hsorted.date_le.1 pad.entry.directive (mem_of_padFor? hbefore hpad).1

/-- What is made at an assertion is a transaction of the pad that it meets. -/
theorem eq_transaction {s' : State} {d t : Directive} {b : Assertion} {pad : Active}
    (hbody : d.body = .balance b) (hpad : s.padFor? b = some pad) (hd : (s.step d).Gives strict s')
    (ht : s'.transactions = s.transactions ++ [t]) :
    ∃ difference, t = pad.entry.transaction b.amount difference := by
  rcases transactions_of_padFor? hbody hpad hd with hnone | ⟨difference, -, hone⟩
  · simp [hnone] at ht
  · rw [hone] at ht
    exact ⟨_, by simpa using ht.symm⟩

/-- Going through a ledger, with the padding transactions `made` so far, the assertion `d` meets
`pad` and `t` is made. -/
def AddedAt (l made : List Directive) (t d : Directive) (pad : DatedPad) : Prop :=
  ∃ before after s s' b active,
    Directive.sort l = before ++ d :: after ∧
    (run before).value? = some s ∧ (s.step d).value? = some s' ∧
    s.transactions = made ∧ s'.transactions = made ++ [t] ∧
    d.body = .balance b ∧ s.padFor? b = some active ∧ active.entry = pad

theorem exists_addedAt {l made rest : List Directive} {t : Directive} {unused : List DatedPad}
    (h : (padding l).value? = some (made ++ t :: rest, unused)) :
    ∃ d pad, AddedAt l made t d pad := by
  obtain ⟨final, hrun, htransactions⟩ := padding_gives (Checked.gives_false.2 h)
  obtain ⟨before, d, after, s, s', b, active, difference, hl, hbefore, hd, hmade, hone, hbody, hpad,
    -⟩ := exists_assertion_of_transactions hrun htransactions
  exact ⟨d, active.entry, before, after, s, s', b, active, hl, Checked.gives_false.1 hbefore,
    Checked.gives_false.1 hd, hmade, hone, hbody, hpad, rfl⟩

theorem AddedAt.isBalance {l made : List Directive} {t d : Directive} {pad : DatedPad}
    (h : AddedAt l made t d pad) : d ∈ l ∧ ∃ b, d.body = .balance b := by
  obtain ⟨before, after, s, s', b, active, hsort, -, -, -, -, hbody, -⟩ := h
  refine ⟨(Directive.sort_perm l).mem_iff.1 ?_, b, hbody⟩
  simp [hsort]

end Padding

theorem mergePadding_of_padding {l transactions merged : List Directive}
    {unused unused' : List DatedPad} (hpadding : (padding l).value? = some (transactions, unused))
    (hmerged : (mergePadding l).value? = some (merged, unused')) :
    merged = if transactions.isEmpty then l else Directive.sort (l ++ transactions) := by
  obtain ⟨s, hrun, rfl⟩ := padding_gives (Checked.gives_false.2 hpadding)
  obtain ⟨s', hrun', hmerge⟩ := mergePadding_gives (Checked.gives_false.2 hmerged)
  rw [Checked.gives_false] at hrun hrun'
  obtain rfl : s = s' := Option.some.inj (hrun.symm.trans hrun')
  exact hmerge

/-- Every padding transaction is made at an assertion, for the pad that it meets. In the merged
ledger it stands before that assertion if the pad has an earlier date, and after it if the pad has
the same date. -/
theorem padding_before_iff {l made rest merged : List Directive} {t : Directive}
    {unused unused' : List DatedPad}
    (hpadding : (padding l).value? = some (made ++ t :: rest, unused))
    (hmerged : (mergePadding l).value? = some (merged, unused')) :
    (∃ d pad, Padding.AddedAt l made t d pad) ∧
      ∀ d pad, Padding.AddedAt l made t d pad →
        t.date = pad.date ∧ pad.date ≤ d.date ∧
        ([t, d].Sublist merged ↔ pad.date < d.date) ∧
        ([d, t].Sublist merged ↔ pad.date = d.date) := by
  refine ⟨Padding.exists_addedAt hpadding, ?_⟩
  rintro d _ ⟨before, after, s, s', b, pad, hsort, hbefore, hd, hmade, hone, hbody, hpad, rfl⟩
  have ht : ∃ difference, t = pad.entry.transaction b.amount difference :=
    Padding.eq_transaction hbody hpad (Checked.gives_false.2 hd) (by rw [hone, hmade])
  have hmerge : merged = Directive.sort (l ++ (made ++ t :: rest)) := by
    simpa using mergePadding_of_padding hpadding hmerged
  have hdate : t.date = pad.entry.date := by
    obtain ⟨difference, rfl⟩ := ht
    exact DatedPad.date_transaction ..
  have hle := Padding.date_le_of_padFor? hsort (Checked.gives_false.2 hbefore) hpad
  -- What the order of the merged ledger says about `t` and `d`.
  obtain ⟨transaction, htbody⟩ : ∃ transaction, t.body = .transaction transaction := by
    obtain ⟨difference, rfl⟩ := ht
    exact DatedPad.body_transaction ..
  have hsorted : Directive.IsSorted merged := by
    rw [hmerge]
    exact Directive.isSorted_sort _
  have hperm := Directive.sort_perm (l ++ (made ++ t :: rest))
  rw [← hmerge] at hperm
  have htmem : t ∈ merged := hperm.mem_iff.2 (by simp)
  have hdmem : d ∈ merged := by
    refine hperm.mem_iff.2 (List.mem_append_left _ ((Directive.sort_perm l).mem_iff.1 ?_))
    simp [hsort]
  have hne := Directive.transaction_rank_ne htbody hbody
  refine ⟨hdate, hle, ?_, ?_⟩
  · rw [Directive.sublist_iff_rank_lt hsorted htmem hdmem hne,
      Directive.transaction_rank_lt_iff htbody hbody, hdate]
  · rw [Directive.sublist_iff_rank_lt hsorted hdmem htmem hne.symm,
      Directive.rank_lt_transaction_iff htbody hbody, hdate, or_iff_right hle.not_gt, eq_comm]

/-- A pad and an assertion for it on one day. -/
def sameDay : List Directive :=
  [(Directive.Body.pad ⟨"Assets:Cash", "Equity:Opening"⟩).on 1,
   (Directive.Body.balance ⟨"Assets:Cash", ⟨.ofNat 100, "USD"⟩, none⟩).on 1]

/-- The transaction that is made for it. -/
def sameDayTransfer : Directive :=
  DatedPad.transaction ⟨.afterNewYear 1, {}, ⟨"Assets:Cash", "Equity:Opening"⟩⟩
    ⟨.ofNat 100, "USD"⟩ ⟨.ofNat 100, "USD"⟩

theorem padding_sameDay :
    (padding sameDay).value? = some ([] ++ sameDayTransfer :: [], []) := by
  have hsort : Directive.sort sameDay = sameDay := Directive.sort_of_isSorted (by decide +kernel)
  rw [padding, hsort]
  decide +kernel

theorem mergePadding_sameDay :
    (mergePadding sameDay).value? = some (sameDay ++ [sameDayTransfer], []) := by
  have hsort : Directive.sort (sameDay ++ [sameDayTransfer]) = sameDay ++ [sameDayTransfer] :=
    Directive.sort_of_isSorted (by decide +kernel)
  simp [mergePadding, padding_sameDay, hsort]

theorem padding_before_iff_sameDay :
    (padding sameDay).value? = some ([] ++ sameDayTransfer :: [], []) ∧
    (mergePadding sameDay).value? = some (sameDay ++ [sameDayTransfer], []) ∧
    ∃ d pad, Padding.AddedAt sameDay [] sameDayTransfer d pad ∧ pad.date ≤ d.date ∧
        ([sameDayTransfer, d].Sublist (sameDay ++ [sameDayTransfer]) ↔ pad.date < d.date) ∧
        ([d, sameDayTransfer].Sublist (sameDay ++ [sameDayTransfer]) ↔ pad.date = d.date) := by
  obtain ⟨⟨d, pad, h⟩, hall⟩ := padding_before_iff padding_sameDay mergePadding_sameDay
  exact ⟨padding_sameDay, mergePadding_sameDay, d, pad, h, (hall d pad h).2⟩

/-- The padding transaction stands after the only assertion of its ledger. -/
theorem not_before_sameDay :
    ∃ d pad merged, Padding.AddedAt sameDay [] sameDayTransfer d pad ∧
      (mergePadding sameDay).value? = some (merged, []) ∧ ¬[sameDayTransfer, d].Sublist merged := by
  obtain ⟨d, pad, h⟩ := Padding.exists_addedAt padding_sameDay
  refine ⟨d, pad, _, h, mergePadding_sameDay, ?_⟩
  obtain ⟨hmem, b, hbody⟩ := h.isBalance
  rcases List.mem_pair.1 hmem with rfl | rfl
  · cases hbody
  · decide +kernel

end DoubleEntry
