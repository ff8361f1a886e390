import DoubleEntry.Proofs.Summary.Parts

/-!
# Filled-in amounts by line

The index of filled-in amounts has one amount for each posting that was filled in, under the file
and the line of the posting, and nothing else. Under one line they stand in the order of the ledger.

* `AutomaticAmounts.getD_get?_add`, `AutomaticAmounts.amounts_add`: what one more amount does to a
  line, and to all of them.
* `AutomaticAmounts.HasNoGaps`: no file and no line is without amounts.
* `Summary.automatic_of_postings`: the index of a ledger, told from its postings.
-/

namespace DoubleEntry

namespace Posting

/-- The place under which the amount of a posting is noted: line 0 of the file without a name, if
the place of the posting is not known. -/
def place (p : Posting) : Location := p.metadata.location?.getD ⟨"", 0⟩

/-- The amount that was filled in on a posting. -/
def filledIn? (p : Posting) : Option Amount := if p.isAutomatic then p.amount? else none

end Posting

/-- What a value adds to the list of its key, it adds to the lists of all keys. -/
theorem flatMap_values_insert {κ α β : Type} [Ord κ] [DecidableEq κ] [Std.TransOrd κ]
    [Std.LawfulEqOrd κ] {m : Std.TreeMap κ α} {key : κ} {a : α} {f : α → List β} {new : List β}
    (h : (f a).Perm ((m[key]?).elim [] f ++ new)) :
    ((m.insert key a).values.flatMap f).Perm (m.values.flatMap f ++ new) := by
  let others := (m.toList.filter fun e => ¬key == e.1).flatMap fun e => f e.2
  have hinsert : ((m.insert key a).values.flatMap f).Perm (f a ++ others) := by
    rw [values_eq_map_toList, List.flatMap_map]
    exact Std.TreeMap.toList_insert_perm.flatMap_right _
  have hsplit : (m.values.flatMap f).Perm ((m[key]?).elim [] f ++ others) := by
    rw [values_eq_map_toList, List.flatMap_map]
    refine ((toList_perm_split m key).flatMap_right _).trans (.of_eq ?_)
    cases m[key]? <;> simp [others]
  refine hinsert.trans ((h.append_right others).trans ?_)
  rw [List.append_assoc]
  refine (List.perm_append_comm.append_left _).trans ?_
  rw [← List.append_assoc]
  exact hsplit.symm.append_right new

namespace AutomaticAmounts

variable {index : AutomaticAmounts}

/-! ## One more amount -/

theorem addPosting_eq (index : AutomaticAmounts) (p : Posting) :
    index.addPosting p =
      p.filledIn?.elim index fun a => index.add p.place.file p.place.line a := by
  unfold addPosting Posting.filledIn? Posting.place
  cases p.isAutomatic <;> cases p.amount? <;> rfl

/-- An amount comes last under its own line. -/
theorem getD_get?_add (index : AutomaticAmounts) (place : Location) (a : Amount) (file : String)
    (line : Nat) :
    ((index.add place.file place.line a).get? file line).getD [] =
      (index.get? file line).getD [] ++ if place = ⟨file, line⟩ then [a.text] else [] := by
  obtain ⟨file', line'⟩ := place
  simp only [get?, add, Std.TreeMap.getElem?_insert, Std.LawfulEqCmp.compare_eq_iff_eq,
    Location.mk.injEq, Std.TreeMap.getD_eq_getD_getElem?]
  by_cases hfile : file' = file
  · subst hfile
    rw [if_pos rfl, Option.bind_some, Std.TreeMap.getElem?_insert]
    by_cases hline : line' = line
    · subst hline
      cases index[file']? <;> simp
    · cases index[file']? <;> simp [hline]
  · simp [hfile]

/-- All amounts, by file and line. -/
def amounts (index : AutomaticAmounts) : List String :=
  index.values.flatMap fun lines => lines.values.flatMap id

/-- An amount that is added is one more, wherever it goes. -/
theorem amounts_add (index : AutomaticAmounts) (file : String) (line : Nat) (a : Amount) :
    (index.add file line a).amounts.Perm (index.amounts ++ [a.text]) := by
  refine flatMap_values_insert ?_
  rw [Std.TreeMap.getD_eq_getD_getElem?]
  have hline (lines : Std.TreeMap Nat (List String)) :
      ((lines.insert line (lines.getD line [] ++ [a.text])).values.flatMap id).Perm
        (lines.values.flatMap id ++ [a.text]) := by
    refine flatMap_values_insert (.of_eq ?_)
    rw [Std.TreeMap.getD_eq_getD_getElem?]
    cases lines[line]? <;> rfl
  cases index[file]? with
  | none => exact hline {}
  | some lines => exact hline lines

/-- No file is without lines, and no line without amounts. -/
def HasNoGaps (index : AutomaticAmounts) : Prop :=
  ∀ (file : String) (lines : Std.TreeMap Nat (List String)), index[file]? = some lines →
    lines.isEmpty = false ∧
      ∀ (line : Nat) (amounts : List String), lines[line]? = some amounts → amounts ≠ []

/-- A file or line that gets an amount is not empty. -/
theorem HasNoGaps.add (h : index.HasNoGaps) (file : String) (line : Nat) (a : Amount) :
    (index.add file line a).HasNoGaps := by
  intro file' lines' hlines'
  simp only [AutomaticAmounts.add, Std.TreeMap.getElem?_insert] at hlines'
  split at hlines'
  · obtain rfl := Option.some.inj hlines'
    refine ⟨Std.TreeMap.isEmpty_insert, fun line' amounts hamounts => ?_⟩
    rw [Std.TreeMap.getElem?_insert] at hamounts
    split at hamounts
    · obtain rfl := Option.some.inj hamounts
      exact List.concat_ne_nil _ _
    · rw [Std.TreeMap.getD_eq_getD_getElem?] at hamounts
      cases hlines : index[file]? with
      | none => simp [hlines] at hamounts
      | some lines => exact (h file lines hlines).2 line' amounts (by simpa [hlines] using hamounts)
  · exact h file' lines' hlines'

/-! ## All postings -/

/-- Of some postings, those of a place add their amounts there, in their order. -/
theorem getD_get?_foldl_addPosting (index : AutomaticAmounts) (ps : List Posting) (file : String)
    (line : Nat) :
    ((ps.foldl addPosting index).get? file line).getD [] = (index.get? file line).getD [] ++
      (ps.filter (·.place = ⟨file, line⟩)).filterMap (·.filledIn?.map Amount.text) := by
  induction ps generalizing index with
  | nil => simp
  | cons p ps ih =>
    rw [List.foldl_cons, ih, addPosting_eq, List.filter_cons]
    cases hfilled : p.filledIn? with
    | none => by_cases hplace : p.place = ⟨file, line⟩ <;> simp [hplace, hfilled]
    | some a =>
      rw [Option.elim_some, getD_get?_add]
      by_cases hplace : p.place = ⟨file, line⟩ <;> simp [hplace, hfilled]

theorem amounts_foldl_addPosting (index : AutomaticAmounts) (ps : List Posting) :
    (ps.foldl addPosting index).amounts.Perm
      (index.amounts ++ ps.filterMap (·.filledIn?.map Amount.text)) := by
  induction ps generalizing index with
  | nil => simp
  | cons p ps ih =>
    rw [List.foldl_cons, addPosting_eq]
    refine (ih _).trans ?_
    cases hfilled : p.filledIn? with
    | none => simp [hfilled]
    | some a =>
      refine ((amounts_add index _ _ a).append_right _).trans (.of_eq ?_)
      simp [hfilled]

theorem HasNoGaps.foldl_addPosting (h : index.HasNoGaps) (ps : List Posting) :
    (ps.foldl addPosting index).HasNoGaps := by
  refine List.foldlRecOn ps addPosting h fun index h p _ => ?_
  rw [addPosting_eq]
  cases p.filledIn? with
  | none => exact h
  | some a => exact h.add _ _ a

end AutomaticAmounts

/-- Under each file and line the index of a ledger has the texts of the amounts that were filled in
there, in the order of the postings. It has no gaps, and as many amounts as there are postings with
an amount that was filled in. -/
theorem Summary.automatic_of_postings (texts : Bool) (entries : List Directive) :
    let index := (ofEntries texts entries).automatic
    let postings := entries.flatMap Directive.postings
    (∀ file line, (index.get? file line).getD [] =
      (postings.filter (·.place = ⟨file, line⟩)).filterMap (·.filledIn?.map Amount.text)) ∧
    index.HasNoGaps ∧
    index.amounts.length = postings.countP (·.filledIn?.isSome) := by
  intro index postings
  have hindex : index = postings.foldl AutomaticAmounts.addPosting {} := by
    rw [show index = (ofEntries texts entries).automatic from rfl, ofEntries_eq]
  have hempty : AutomaticAmounts.HasNoGaps {} := by
    intro file lines hlines
    simp at hlines
  rw [hindex]
  refine ⟨fun file line => ?_, hempty.foldl_addPosting postings, ?_⟩
  · rw [AutomaticAmounts.getD_get?_foldl_addPosting]
    simp [AutomaticAmounts.get?]
  · rw [(AutomaticAmounts.amounts_foldl_addPosting {} postings).length_eq, List.length_append,
      List.length_filterMap_eq_countP]
    simp only [Option.isSome_map]
    exact Nat.zero_add _

end DoubleEntry
