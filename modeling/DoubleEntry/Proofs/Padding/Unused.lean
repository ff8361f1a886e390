import DoubleEntry.Ledger
import DoubleEntry.Proofs.Order
import DoubleEntry.Proofs.Padding.Run
import DoubleEntry.Proofs.Sample

/-!
# Pads without use

A pad is of use if an assertion on its account comes before the next pad of the account, whether or
not anything is missing then. The others are reported, each of them once.

* `Padding.IsIdle`: no assertion on an account comes before the next pad of it.
* `Padding.idlePads`: the pads of some directives that are of no use.
* `State.Step.idle_perm`: a step does not change which pads are without use in the end, among those
  that were replaced, those that apply and those that are still to come.
* `unused_perm`: the pads that are reported are the idle ones.
-/

namespace DoubleEntry

/-- Whether the directive is a pad of the account. -/
def Directive.pads (d : Directive) (account : Account) : Bool :=
  match d.body with
  | .pad p => p.account = account
  | _ => false

/-- Whether the directive is an assertion on the account. -/
def Directive.asserts (d : Directive) (account : Account) : Bool :=
  match d.body with
  | .balance b => b.account = account
  | _ => false

namespace Padding

variable {strict : Bool} {s s' : State} {d : Directive} {account : Account}
  {later : List Directive}

/-- Up to the next pad of the account there is no assertion on it. -/
def IsIdle (account : Account) (later : List Directive) : Prop :=
  ∀ d ∈ later.takeWhile (!·.pads account), ¬d.asserts account

instance : Decidable (IsIdle account later) := inferInstanceAs (Decidable (∀ d ∈ _, ¬_))

/-- The pads that are of no use, in their order. -/
def idlePads : List Directive → List DatedPad
  | [] => []
  | d :: later =>
    match d.body with
    | .pad p =>
      if IsIdle p.account later then ⟨d.date, d.metadata, p⟩ :: idlePads later else idlePads later
    | _ => idlePads later

/-! ## One directive -/

theorem isIdle_cons_of_pads (h : d.pads account) : IsIdle account (d :: later) := by
  simp [IsIdle, h]

theorem not_isIdle_cons_of_asserts (h : d.asserts account) : ¬IsIdle account (d :: later) := by
  have hpads : d.pads account = false := by
    unfold Directive.asserts at h
    unfold Directive.pads
    split at h
    · next hbody => rw [hbody]
    · cases h
  simp [IsIdle, hpads, h]

theorem isIdle_cons_of_not (hpads : ¬d.pads account) (hasserts : ¬d.asserts account) :
    IsIdle account (d :: later) ↔ IsIdle account later := by
  simp [IsIdle, hpads, hasserts]

/-- Those of some pads that apply to accounts which are of no use, neither so far nor later. -/
def idleOf (later : List Directive) (entries : List (Account × Active)) : List DatedPad :=
  entries.filterMap fun e =>
    if e.2.used = [] ∧ IsIdle e.1 later then some e.2.entry else none

/-- The pads that apply to accounts other than one. -/
def State.others (s : State) (account : Account) : List (Account × Active) :=
  s.active.toList.filter fun e => ¬account == e.1

theorem idleOf_append (later : List Directive) (l l' : List (Account × Active)) :
    idleOf later (l ++ l') = idleOf later l ++ idleOf later l' :=
  List.filterMap_append

theorem idleOf_cons_of_not {entries : List (Account × Active)}
    (h : ∀ e ∈ entries, ¬d.pads e.1 ∧ ¬d.asserts e.1) :
    idleOf (d :: later) entries = idleOf later entries := by
  refine List.filterMap_congr fun e he => ?_
  simp only [isIdle_cons_of_not (h e he).1 (h e he).2]

theorem idleOf_eq_nil {entries : List (Account × Active)}
    (h : ∀ e ∈ entries, ¬(e.2.used = [] ∧ IsIdle e.1 later)) : idleOf later entries = [] := by
  refine List.filterMap_eq_nil_iff.2 fun e he => ?_
  rw [if_neg (h e he)]

theorem ne_of_mem_others {e : Account × Active} (he : e ∈ s.others account) : account ≠ e.1 := by
  simpa using (List.mem_filter.1 he).2

/-- The pad of one account and those of the others. -/
theorem State.idleOf_perm (s : State) (account : Account) (later : List Directive) :
    (idleOf later s.active.toList).Perm
      (idleOf later ((s.active[account]?).toList.map (account, ·)) ++
        idleOf later (s.others account)) := by
  rw [← idleOf_append]
  exact (toList_perm_split s.active account).filterMap _

/-- The same after another pad has come to apply to the account. -/
theorem State.idleOf_perm_of_insert {pad : Active} (hs : s'.active = s.active.insert account pad)
    (later : List Directive) :
    (idleOf later s'.active.toList).Perm
      (idleOf later [(account, pad)] ++ idleOf later (s.others account)) := by
  rw [← idleOf_append, hs]
  exact Std.TreeMap.toList_insert_perm.filterMap _

theorem idlePads_cons_of_not_pad (h : ∀ p, d.body ≠ .pad p) :
    idlePads (d :: later) = idlePads later := by
  rw [idlePads]
  split
  · next p hbody => exact absurd hbody (h p)
  · rfl

theorem idlePads_cons_of_pad {p : Pad} (h : d.body = .pad p) :
    idlePads (d :: later) =
      idleOf later [(p.account, ⟨⟨d.date, d.metadata, p⟩, []⟩)] ++ idlePads later := by
  rw [idlePads, h]
  by_cases hidle : IsIdle p.account later <;> simp [idleOf, hidle]

/-! ## The steps -/

/-- After an assertion the pad of its account is not without use, as it was not before. -/
theorem State.idle_perm_of_balance {b : Assertion} (hbody : d.body = .balance b)
    (hs : (idleOf later s'.active.toList).Perm (idleOf later (s.others b.account))) :
    (idleOf later s'.active.toList ++ idlePads later).Perm
      (idleOf (d :: later) s.active.toList ++ idlePads (d :: later)) := by
  have hnot : ¬IsIdle b.account (d :: later) :=
    not_isIdle_cons_of_asserts (by simp [Directive.asserts, hbody])
  have hown : idleOf (d :: later) ((s.active[b.account]?).toList.map (b.account, ·)) = [] := by
    refine idleOf_eq_nil fun e he => ?_
    obtain ⟨pad, -, rfl⟩ := List.mem_map.1 he
    exact fun h => hnot h.2
  have hothers : idleOf (d :: later) (s.others b.account) = idleOf later (s.others b.account) := by
    refine idleOf_cons_of_not fun e he => ?_
    simp [Directive.pads, Directive.asserts, hbody, ne_of_mem_others he]
  have hbefore := s.idleOf_perm b.account (d :: later)
  rw [hown, hothers, List.nil_append] at hbefore
  rw [idlePads_cons_of_not_pad (by simp [hbody])]
  exact (hs.trans hbefore.symm).append_right _

/-- Once an assertion has used a pad, the pad is not without use. -/
theorem State.idleOf_perm_of_use {b : Assertion} {pad : Active}
    (hs : s'.active = (s.use b pad).active) :
    (idleOf later s'.active.toList).Perm (idleOf later (s.others b.account)) := by
  refine (idleOf_perm_of_insert hs later).trans (List.Perm.of_eq ?_)
  rw [idleOf_eq_nil (by simp), List.nil_append]

/-- A step does not change which pads are without use in the end. -/
theorem State.Step.idle_perm (h : s.Step strict d s') (later : List Directive) :
    (s'.unused ++ (idleOf later s'.active.toList ++ idlePads later)).Perm
      (s.unused ++ (idleOf (d :: later) s.active.toList ++ idlePads (d :: later))) := by
  cases h with
  | post hpad hbalance _ =>
    have hnone : ∀ a, ¬d.pads a ∧ ¬d.asserts a := by
      intro a
      unfold Directive.pads Directive.asserts
      split
      · next p hbody => exact absurd hbody (hpad p)
      · next hbody =>
        split
        · next b hbody => exact absurd hbody (hbalance b)
        · simp
    rw [idleOf_cons_of_not fun e _ => hnone e.1, idlePads_cons_of_not_pad hpad]
  | @pad p hbody =>
    have hpads : d.pads p.account := by simp [Directive.pads, hbody]
    have hreplaced :
        idleOf (d :: later) ((s.active[p.account]?).toList.map (p.account, ·)) =
          ((s.active[p.account]?).toList.filter (·.used.isEmpty)).map (·.entry) := by
      cases s.active[p.account]? with
      | none => rfl
      | some pad => by_cases hused : pad.used = [] <;>
          simp [idleOf, isIdle_cons_of_pads hpads, hused]
    have hothers :
        idleOf (d :: later) (s.others p.account) = idleOf later (s.others p.account) := by
      refine idleOf_cons_of_not fun e he => ?_
      simp [Directive.pads, Directive.asserts, hbody, ne_of_mem_others he]
    have hbefore := s.idleOf_perm p.account (d :: later)
    rw [hreplaced, hothers] at hbefore
    have hinsert : (s.addPad ⟨d.date, d.metadata, p⟩).active =
        s.active.insert p.account ⟨⟨d.date, d.metadata, p⟩, []⟩ := rfl
    have hafter := State.idleOf_perm_of_insert hinsert later
    rw [idlePads_cons_of_pad hbody]
    simp only [State.addPad, List.append_assoc] at hbefore hafter ⊢
    refine List.Perm.append_left _ (((hafter.append_right _).append_left _).trans ?_)
    refine List.Perm.trans ?_ (hbefore.append_right _).symm
    simp only [List.append_assoc]
    exact List.Perm.append_left _ (List.perm_append_comm_assoc _ _ _)
  | @pass b hbody hpad =>
    refine (State.idle_perm_of_balance hbody ?_).append_left s.unused
    have hown : idleOf later ((s.active[b.account]?).toList.map (b.account, ·)) = [] := by
      refine idleOf_eq_nil fun e he => ?_
      obtain ⟨pad, hactive, rfl⟩ := List.mem_map.1 he
      replace hactive := Option.mem_toList.1 hactive
      rintro ⟨hused, -⟩
      have hfresh : b.amount.currency ∉ pad.used := by simp [show pad.used = [] from hused]
      rw [padFor?_eq_some.2 ⟨hactive, hfresh⟩] at hpad
      cases hpad
    have hperm := s.idleOf_perm b.account later
    rwa [hown, List.nil_append] at hperm
  | cover hbody => exact (State.idle_perm_of_balance hbody (idleOf_perm_of_use rfl)).append_left _
  | fill hbody => exact (State.idle_perm_of_balance hbody (idleOf_perm_of_use rfl)).append_left _

/-! ## Runs -/

theorem State.allUnused_perm (s : State) :
    s.allUnused.Perm (s.unused ++ idleOf [] s.active.toList) := by
  refine List.Perm.append_left _ ((List.mergeSort_perm _ _).trans (List.Perm.of_eq ?_))
  rw [values_eq_map_toList]
  induction s.active.toList with
  | nil => rfl
  | cons e l ih =>
    have hidle : IsIdle e.1 [] := by simp [IsIdle]
    by_cases hused : e.2.used = [] <;> simpa [idleOf, hused, hidle] using ih

/-- What is without use after a run, of the pads so far and those that the run has met. -/
theorem allUnused_foldlM {l : List Directive} (h : (l.foldlM State.step s).Gives strict s') :
    s'.allUnused.Perm (s.unused ++ (idleOf l s.active.toList ++ idlePads l)) := by
  induction l generalizing s with
  | nil =>
    obtain rfl := Checked.exact_gives.1 h
    rw [idlePads, List.append_nil]
    exact s.allUnused_perm
  | cons d l ih =>
    obtain ⟨s₁, hd, hl⟩ := Checked.bind_gives.1 h
    exact (ih hl).trans ((step_of_gives hd).idle_perm l)

end Padding

/-- Going through a ledger in the order of the ranks, padding reports each pad once for which no
assertion on its account comes before the next pad of the account, and no other pad. The report has
the place of the pad. -/
theorem unused_perm {l transactions : List Directive} {unused : List DatedPad}
    (h : (padding l).value? = some (transactions, unused)) :
    unused.Perm (Padding.idlePads (Directive.sort l)) ∧
      (unused.map LedgerError.ofUnusedPad).Perm ((Padding.idlePads (Directive.sort l)).map
        fun p => .located p.metadata.location? "Unused Pad entry") := by
  obtain ⟨s, hs, heq⟩ := Checked.bind_gives.1 (Checked.gives_false.2 h)
  obtain ⟨-, rfl⟩ := Prod.mk.inj (Checked.exact_gives.1 heq)
  have hperm : s.allUnused.Perm (Padding.idlePads (Directive.sort l)) := Padding.allUnused_foldlM hs
  exact ⟨hperm, hperm.map _⟩

/-- Two pads of one account of which the first is replaced and the second used, though nothing is
missing, and a pad of another account that is asserted too early. -/
def idleAndUsed : List Directive := [
  (Directive.Body.pad ⟨"Assets:Cash", "Equity:Opening"⟩).on 1,
  (Directive.Body.balance ⟨"Assets:Bank", ⟨.ofNat 100, "USD"⟩, none⟩).on 1,
  (Directive.Body.pad ⟨"Assets:Bank", "Assets:Cash"⟩).on 2,
  (Directive.Body.pad ⟨"Assets:Cash", "Equity:Opening"⟩).on 3,
  (Directive.Body.balance ⟨"Assets:Cash", ⟨.zero, "USD"⟩, none⟩).on 3]

theorem unused_perm_idleAndUsed :
    ∃ unused, (padding idleAndUsed).value? = some ([], unused) ∧
      unused.Perm [
        ⟨.afterNewYear 1, {}, ⟨"Assets:Cash", "Equity:Opening"⟩⟩,
        ⟨.afterNewYear 2, {}, ⟨"Assets:Bank", "Assets:Cash"⟩⟩] := by
  have hsort : Directive.sort idleAndUsed = idleAndUsed :=
    Directive.sort_of_isSorted (by decide +kernel)
  obtain ⟨s, hs, htransactions⟩ : ∃ s, Padding.run idleAndUsed = .exact s ∧
      s.transactions = [] := by decide +kernel
  have hpadding : (padding idleAndUsed).value? = some ([], s.allUnused) := by
    simp [padding, hsort, hs, htransactions]
  have hidle : Padding.idlePads idleAndUsed = [
      ⟨.afterNewYear 1, {}, ⟨"Assets:Cash", "Equity:Opening"⟩⟩,
      ⟨.afterNewYear 2, {}, ⟨"Assets:Bank", "Assets:Cash"⟩⟩] := by decide +kernel
  have hperm := (unused_perm hpadding).1
  rw [hsort, hidle] at hperm
  exact ⟨s.allUnused, hpadding, hperm⟩

end DoubleEntry
