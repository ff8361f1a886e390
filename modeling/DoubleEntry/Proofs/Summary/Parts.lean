import DoubleEntry.Proofs.Holdings
import DoubleEntry.Summary.Basic

/-!
# The parts of a summary

The entries of a ledger go into the parts of its summary independently of each other
(`Summary.ofEntries_eq`): openings and closings into the records of accounts, the words of
transactions into the vocabulary, and their postings into the notes and the filled-in amounts. Only
the vocabulary depends on whether texts are wanted.
-/

namespace DoubleEntry

/-- Takes in an entry. All but openings and closings of known accounts change nothing. -/
def Registry.addEntry (r : Registry) (d : Directive) : Registry :=
  match d.body with
  | .opening account currencies _ => r.opening account d.date currencies
  | .closing account => (r.closing? account d.date).getD r
  | _ => r

/-- The notes about a directive and its postings, in their order. -/
def Directive.flagNotes (d : Directive) : List FlagNote :=
  (d.transaction?.bind (·.flagNote? d.location?)).toList ++
    d.postings.flatMap fun p => p.flagNote?.toList

namespace Summary

theorem foldl_addPosting (s : Summary) (ps : List Posting) :
    ps.foldl addPosting s = { s with
      flagged := s.flagged ++ ps.flatMap fun p => p.flagNote?.toList
      automatic := ps.foldl AutomaticAmounts.addPosting s.automatic } := by
  induction ps generalizing s with
  | nil => simp
  | cons p ps ih =>
    rw [List.foldl_cons, ih]
    simp [addPosting]

/-- What an entry adds to each part. -/
theorem addEntry_eq (texts : Bool) (s : Summary) (d : Directive) :
    s.addEntry texts d = {
      accounts := s.accounts.addEntry d
      vocabulary := d.transaction?.toList.foldl (·.addTransaction texts) s.vocabulary
      flagged := s.flagged ++ d.flagNotes
      automatic := d.postings.foldl AutomaticAmounts.addPosting s.automatic } := by
  obtain ⟨date, metadata, body⟩ := d
  cases body with
  | transaction t =>
    show s.addTransaction texts t _ = _
    rw [addTransaction, foldl_addPosting]
    simp [Registry.addEntry, Directive.flagNotes, Directive.transaction?, Directive.postings]
  | _ => simp [addEntry, Registry.addEntry, Directive.flagNotes, Directive.transaction?,
      Directive.postings]

theorem foldl_addEntry (texts : Bool) (s : Summary) (entries : List Directive) :
    entries.foldl (addEntry texts) s = {
      accounts := entries.foldl Registry.addEntry s.accounts
      vocabulary :=
        (entries.filterMap Directive.transaction?).foldl (·.addTransaction texts) s.vocabulary
      flagged := s.flagged ++ entries.flatMap Directive.flagNotes
      automatic :=
        (entries.flatMap Directive.postings).foldl AutomaticAmounts.addPosting s.automatic } := by
  induction entries generalizing s with
  | nil => simp
  | cons d entries ih =>
    rw [List.foldl_cons, ih, addEntry_eq]
    cases h : d.transaction? <;> simp [h]

/-- The summary of some entries, part by part. -/
theorem ofEntries_eq (texts : Bool) (entries : List Directive) :
    ofEntries texts entries = {
      accounts := entries.foldl Registry.addEntry {}
      vocabulary := ((entries.filterMap Directive.transaction?).foldl
        (Vocabulary.addTransaction · texts) {}).withoutBlanks
      flagged := entries.flatMap Directive.flagNotes
      automatic := (entries.flatMap Directive.postings).foldl AutomaticAmounts.addPosting {} } := by
  rw [ofEntries, foldl_addEntry, withoutBlanks]
  rfl

end Summary

end DoubleEntry
