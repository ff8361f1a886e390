import DoubleEntry.Journal.Basic
import DoubleEntry.Proofs.Booking.Interpolation
import DoubleEntry.Proofs.Sample
import DoubleEntry.Summary.Basic

/-!
# Postings that need review

A flag is a mark on a posting as it was written, and interpolation may put several postings, or none
at all, in its place. All that stand for one written posting keep its flag and its place, so the
summary notes a written posting as often as there are postings that stand for it.

* `Transaction.leftOver`: the currencies that a posting without units takes, told from what was
  written.
* `Transaction.interpolate_eq_ok`: what interpolation makes of the postings, in their order.
* `flagged_interpolated`: the notes on a transaction and its postings after interpolation.
-/

namespace DoubleEntry

namespace Posting

/-- How many postings stand for the posting after interpolation, given the currencies that a posting
without units takes. -/
def legs (p : Posting) (leftOver : List Currency) : Nat :=
  if p.units.isSome then 1 else leftOver.length

theorem flagNote?_inContext (p : Posting) (shared : Option Currency) :
    (p.inContext shared).flagNote? = p.flagNote? := by
  rw [(p.inContext_eq shared).1]
  rfl

theorem legs_inContext (p : Posting) (shared : Option Currency) (leftOver : List Currency) :
    (p.inContext shared).legs leftOver = p.legs leftOver := by
  rw [legs, legs, (p.inContext_eq shared).2.1]

end Posting

namespace Transaction

/-- The currencies that a posting without units takes, given the sum of what was written: those in
which it is not zero and no other posting is solved for its number. -/
def leftOver (t : Transaction) (written : Totals) : List Currency :=
  ((written.toList.filter fun e => ∀ p ∈ t.postings, p.solvedIn? ≠ some e.1).filter
    (!·.2.isZero)).map (·.1)

end Transaction

/-- A posting without units takes the currencies in which something was written and no number was
missing. -/
theorem Transaction.interpolate_eq_ok {t : Transaction} {result : Interpolation}
    (h : t.interpolate.run.value? = some (.ok result)) :
    ∃ written residual solved, t.written.value? = some written ∧
      (residual.toList.filter (!·.2.isZero)).map (·.1) = t.leftOver written ∧
      result.transaction = { t with postings := t.postings.flatMap fun p =>
        (completed residual solved (p.inContext t.sharedCurrency?)).map (·.1) } := by
  obtain ⟨written, residual, solved, h⟩ := interpolate_gives.1 (Checked.gives_false.2 h)
  refine ⟨written, residual, solved, Checked.gives_false.1 h.sum, ?_,
    t.map_standIns residual solved ▸ h.transaction⟩
  rw [toList_solveNumbers h.solving, leftOver]
  congr 2
  refine List.filter_congr fun e _ => decide_eq_decide.2 ?_
  rw [forall_missingNumbers]
  refine forall₂_congr fun p _ => ?_
  rw [Posting.solvedIn?]
  cases p.missingNumber? <;> simp

/-! ## Notes -/

namespace Metadata

theorem location?_setAutomatic (m : Metadata) : m.setAutomatic.location? = m.location? := by
  have hline : lineKey ≠ automaticKey := by decide
  have hfile : fileKey ≠ automaticKey := by decide
  rw [location?, location?, setAutomatic, get?_insert, get?_insert, if_neg hline, if_neg hfile]

end Metadata

/-- The postings that stand for one all have its note. -/
theorem flagNotes_completed (residual : Totals) (solved : List (Currency × Decimal)) (p : Posting) :
    ((completed residual solved p).map (·.1)).map Posting.flagNote? =
      List.replicate (p.legs ((residual.toList.filter (!·.2.isZero)).map (·.1))) p.flagNote? := by
  have hfill : ∀ (q : Posting) a, q.flag = p.flag → q.account = p.account →
      q.metadata = p.metadata → (q.fill a).flagNote? = p.flagNote? := by
    intro q a hflag haccount hmetadata
    rw [Posting.flagNote?, Posting.flagNote?, Posting.fill, hflag, haccount, hmetadata,
      Metadata.location?_setAutomatic]
  unfold completed Posting.legs
  cases hunits : p.units with
  | none =>
    simp only [List.map_map]
    rw [List.eq_replicate_iff]
    refine ⟨by simp, fun note hnote => ?_⟩
    obtain ⟨e, -, rfl⟩ := List.mem_map.1 hnote
    exact hfill _ _ rfl rfl rfl
  | some units =>
    cases units with
    | currencyOnly c => simp [hfill p _ rfl rfl rfl]
    | _ => simp

namespace Summary

theorem flagged_addTransaction (s : Summary) (texts : Bool) (t : Transaction)
    (location : Option Location) :
    (s.addTransaction texts t location).flagged =
      s.flagged ++ (t.flagNote? location).toList ++
        t.postings.flatMap fun p => p.flagNote?.toList := by
  have hfold : ∀ (ps : List Posting) (s : Summary), (ps.foldl addPosting s).flagged =
      s.flagged ++ ps.flatMap fun p => p.flagNote?.toList := by
    intro ps
    induction ps with
    | nil => intro s; simp
    | cons p ps ih => intro s; rw [List.foldl_cons, ih]; simp [addPosting]
  exact hfold _ _

end Summary

/-- After interpolation a summary notes the transaction itself, if it has the warning flag, and then
each written posting that has it, in their order: once if its number or its currency was written,
and otherwise once for each currency that it takes. -/
theorem flagged_interpolated {t : Transaction} {result : Interpolation}
    (h : t.interpolate.run.value? = some (.ok result)) (texts : Bool) (date : Date)
    (metadata : Metadata) :
    ∃ written, t.written.value? = some written ∧
      (Summary.ofEntries texts [⟨date, metadata, .transaction result.transaction⟩]).flagged =
        (t.flagNote? metadata.location?).toList ++ t.postings.flatMap fun p =>
          p.flagNote?.toList.flatMap (List.replicate (p.legs (t.leftOver written))) := by
  obtain ⟨written, residual, solved, hwritten, hleft, hresult⟩ := Transaction.interpolate_eq_ok h
  refine ⟨written, hwritten, ?_⟩
  have hnotes : ∀ p : Posting,
      ((completed residual solved (p.inContext t.sharedCurrency?)).map (·.1)).flatMap
          (fun q => q.flagNote?.toList) =
        p.flagNote?.toList.flatMap (List.replicate (p.legs (t.leftOver written))) := by
    intro p
    have hflags := flagNotes_completed residual solved (p.inContext t.sharedCurrency?)
    rw [hleft, Posting.legs_inContext, Posting.flagNote?_inContext] at hflags
    rw [← List.flatMap_map, hflags, List.flatMap_replicate]
    cases p.flagNote? with
    | none => simp
    | some note => simp
  rw [Summary.ofEntries, Summary.withoutBlanks]
  show (Summary.addTransaction {} texts result.transaction metadata.location?).flagged = _
  rw [Summary.flagged_addTransaction, hresult, List.flatMap_assoc]
  simp only [hnotes]
  rfl

/-- The cash account takes what two others leave over in different currencies. -/
def changedMoney : Transaction where
  postings := [.plain "Assets:Euros" (.ofNat 2) "EUR", .plain "Assets:Dollars" (.ofNat 1) "USD",
    { account := "Assets:Cash", flag := some Flag.warning }]

theorem flagged_interpolated_changedMoney :
    ∃ result written, changedMoney.interpolate.run.value? = some (.ok result) ∧
      changedMoney.written.value? = some written ∧
      (Summary.ofEntries false [⟨.afterNewYear 0, {}, .transaction result.transaction⟩]).flagged =
        List.replicate 2 (.about "Posting" '!' none ["Assets:Cash"]) := by
  obtain ⟨result, hresult, -⟩ :
      ∃ result, changedMoney.interpolate.run.value? = some (.ok result) ∧
        result.filled = [2, 3] :=
    exists_of_any (by decide +kernel)
  obtain ⟨written, hwritten, hflagged⟩ :=
    flagged_interpolated hresult false (.afterNewYear 0) {}
  have hleft : changedMoney.written.value?.map changedMoney.leftOver = some ["EUR", "USD"] := by
    decide +kernel
  rw [hwritten, Option.map_some, Option.some_inj] at hleft
  refine ⟨result, written, hresult, hwritten, ?_⟩
  rw [hflagged, hleft]
  decide +kernel

/-- The only posting has the warning flag, and nothing is left over for it. -/
def idleCash : Transaction where
  postings := [{
    account := "Assets:Cash"
    flag := some Flag.warning
    metadata := ({} : Metadata).setLine 2 }]

/-- Nothing stands for the posting after interpolation, so the summary has no note on it. -/
theorem flagged_idleCash :
    ∃ j result, (Journal.ofText "2024-01-01 *\n  ! Assets:Cash\n").value? = some j ∧
      j.directives.map (·.value.body) = [.transaction idleCash] ∧
      idleCash.interpolate.run.value? = some (.ok result) ∧
      (Summary.ofEntries false [⟨.afterNewYear 0, {}, .transaction result.transaction⟩]).flagged =
        [] := by
  have hread : (Journal.ofText "2024-01-01 *\n  ! Assets:Cash\n").value?.map
      (·.directives.map (·.value.body)) = some [.transaction idleCash] := by decide +kernel
  obtain ⟨j, hj, hbody⟩ := Option.map_eq_some_iff.1 hread
  obtain ⟨result, hresult, hflagged⟩ :
      ∃ result, idleCash.interpolate.run.value? = some (.ok result) ∧
        (Summary.ofEntries false
          [⟨.afterNewYear 0, {}, .transaction result.transaction⟩]).flagged = [] :=
    exists_of_any (by decide +kernel)
  exact ⟨j, result, hj, hbody, hresult, hflagged⟩

end DoubleEntry
