import DoubleEntry.Proofs.Validation

/-!
# The lifetimes of accounts

What validation knows of an account follows from the directives that open and close it
(`accounts_run`): the first that opens it counts, and the first after that one that closes it.

* `lifetime_eq_none_iff`: an account is unknown as long as nothing has opened it.
* `closed_lt_iff`: it is closed before a day if something has opened it and something later, dated
  before that day, has closed it.
-/

namespace DoubleEntry

namespace Directive

/-- Whether the directive opens the account. -/
def opens (d : Directive) (account : Account) : Bool :=
  match d.body with
  | .opening a _ _ => a = account
  | _ => false

/-- Whether the directive closes the account. -/
def closes (d : Directive) (account : Account) : Bool :=
  match d.body with
  | .closing a => a = account
  | _ => false

end Directive

namespace Validation

variable {strict : Bool} {rules : Rules} {s s' : State} {vs : List Violation} {d : Directive}
  {l : List Directive} {account : Account}

/-- What a directive makes of the lifetime of an account. -/
def Lifetime.after (account : Account) (life : Option Lifetime) (d : Directive) :
    Option Lifetime :=
  match life with
  | none =>
    match d.body with
    | .opening a currencies _ => if a = account then some { opened := d.date, currencies } else none
    | _ => none
  | some life =>
    if life.closed = none ∧ d.closes account then some { life with closed := some d.date }
    else some life

/-- The lifetime of an account after some directives. -/
def lifetime (account : Account) (l : List Directive) : Option Lifetime :=
  l.foldl (Lifetime.after account) none

@[simp] theorem lifetime_concat (account : Account) (l : List Directive) (d : Directive) :
    lifetime account (l ++ [d]) = Lifetime.after account (lifetime account l) d := by
  simp [lifetime]

/-- A directive that neither opens nor closes an account leaves its lifetime as it is. -/
theorem after_eq (hopens : d.opens account = false) (hcloses : d.closes account = false)
    (life : Option Lifetime) : Lifetime.after account life d = life := by
  unfold Lifetime.after
  split
  · split
    · rename_i a currencies booking hbody
      have hne : a ≠ account := by simpa [Directive.opens, hbody] using hopens
      rw [if_neg hne]
    · rfl
  · simp [hcloses]

/-! ## Validation goes by lifetimes -/

theorem accounts_opening (account : Account) (currencies : List Currency)
    (booking : Option String) (date : Date) (metadata : Metadata) (a : Account) :
    (s.opening account date currencies).accounts[a]? =
      Lifetime.after a s.accounts[a]? ⟨date, metadata, .opening account currencies booking⟩ := by
  unfold State.opening
  by_cases h : account = a
  · subst h
    cases hlife : s.accounts[account]? <;>
      simp [Lifetime.after, Std.TreeMap.contains_eq_isSome_getElem?, hlife, Directive.closes]
  · rw [after_eq (by simpa [Directive.opens] using h) rfl]
    split
    · rfl
    · simp [Std.TreeMap.getElem?_insert, h]

theorem accounts_closing (account : Account) (date : Date) (metadata : Metadata) (a : Account) :
    (s.closing account date).accounts[a]? =
      Lifetime.after a s.accounts[a]? ⟨date, metadata, .closing account⟩ := by
  unfold State.closing
  by_cases h : account = a
  · subst h
    cases hlife : s.accounts[account]? with
    | none => simp [Lifetime.after, hlife]
    | some life =>
      cases hclosed : life.closed <;> simp [Lifetime.after, hlife, hclosed, Directive.closes]
  · rw [after_eq rfl (by simpa [Directive.closes] using h)]
    split
    · split
      · rfl
      · simp [Std.TreeMap.getElem?_insert, h]
    · rfl

theorem accounts_next (h : (s.next d).Gives strict s') (account : Account) :
    s'.accounts[account]? = Lifetime.after account s.accounts[account]? d := by
  obtain ⟨date, metadata, body⟩ := d
  cases body with
  | opening a currencies booking =>
    obtain rfl := Checked.exact_gives.1 h
    exact accounts_opening a currencies booking date metadata account
  | closing a =>
    obtain rfl := Checked.exact_gives.1 h
    exact accounts_closing a date metadata account
  | transaction t =>
    obtain ⟨holdings, -, h⟩ := Checked.bind_gives.1 h
    obtain rfl := Checked.exact_gives.1 h
    exact (after_eq rfl rfl _).symm
  | _ =>
    obtain rfl := Checked.exact_gives.1 h
    exact (after_eq rfl rfl _).symm

/-- After some directives, validation knows the lifetime of every account. -/
theorem accounts_run (h : (run rules l).Gives strict (s, vs)) (account : Account) :
    s.accounts[account]? = lifetime account l := by
  refine Checked.foldlM_invariant
    (fun seen (now : State × List Violation) =>
      now.1.accounts[account]? = lifetime account seen) (by simp [lifetime]) ?_ h
  rintro seen ⟨s, vs⟩ d ⟨s', vs'⟩ hs hstep
  rw [accounts_next (next_of_step hstep).1, hs, lifetime_concat]

/-! ## Lifetimes and what was gone through -/

theorem after_eq_none_iff {life : Option Lifetime} :
    Lifetime.after account life d = none ↔ life = none ∧ ¬d.opens account := by
  unfold Lifetime.after Directive.opens
  cases life with
  | none => cases d.body <;> simp
  | some life => simp only; split <;> simp

/-- An account is unknown as long as nothing has opened it. -/
theorem lifetime_eq_none_iff : lifetime account l = none ↔ ∀ d ∈ l, ¬d.opens account := by
  induction l using List.reverseRecOn with
  | nil => simp [lifetime]
  | append_singleton l d ih => simp [after_eq_none_iff, ih, or_imp, forall_and]

/-- Whether an account that some directives leave closed was closed on a day: something opened it,
and something later, on that day, closed it. -/
theorem exists_of_closed {life : Lifetime} {day : Date} (hlife : lifetime account l = some life)
    (hday : life.closed = some day) :
    ∃ o k, [o, k].Sublist l ∧ o.opens account ∧ k.closes account ∧ k.date = day := by
  induction l using List.reverseRecOn generalizing life with
  | nil => simp [lifetime] at hlife
  | append_singleton l d ih =>
    rw [lifetime_concat] at hlife
    unfold Lifetime.after at hlife
    split at hlife
    · -- An account is not closed on the day on which it opens.
      split at hlife
      · split at hlife
        · obtain rfl := Option.some.inj hlife
          cases hday
        · cases hlife
      · cases hlife
    · rename_i before hbefore
      split at hlife
      · rename_i hcloses
        obtain rfl := Option.some.inj hlife
        obtain rfl := Option.some.inj hday
        obtain ⟨o, ho, hopens⟩ : ∃ o ∈ l, o.opens account := by
          by_contra hnone
          push Not at hnone
          rw [lifetime_eq_none_iff.2 (by simpa using hnone)] at hbefore
          cases hbefore
        exact ⟨o, d, (List.singleton_sublist.2 ho).append (List.Sublist.refl [d]), hopens,
          hcloses.2, rfl⟩
      · obtain rfl := Option.some.inj hlife
        obtain ⟨o, k, hsub, h⟩ := ih hbefore hday
        exact ⟨o, k, hsub.trans (List.sublist_append_left l [d]), h⟩

/-- An account that was opened and then closed is closed, since the first day on which it was. -/
theorem closed_of_sublist {o k : Directive} (hl : l.Pairwise fun a b => a.date ≤ b.date)
    (hsub : [o, k].Sublist l) (ho : o.opens account) (hk : k.closes account) :
    ∃ life day, lifetime account l = some life ∧ life.closed = some day ∧ day ≤ k.date := by
  induction l using List.reverseRecOn with
  | nil => simp at hsub
  | append_singleton l d ih =>
    obtain ⟨hl, -, hd⟩ := List.pairwise_append.1 hl
    rw [lifetime_concat]
    by_cases hlast : [o, k].Sublist l
    · obtain ⟨life, day, hlife, hclosed, hle⟩ := ih hl hlast
      exact ⟨life, day, by simp [hlife, Lifetime.after, hclosed], hclosed, hle⟩
    · -- So `d` is what closes the account, for the first time or again.
      obtain ⟨u, v, huv, hu, hv⟩ := List.sublist_append_iff.1 hsub
      obtain ⟨rfl, rfl⟩ : u = [o] ∧ v = [k] := by
        have hlen := hv.length_le
        match u, v, huv with
        | [], _, rfl => simp at hlen
        | [_], _, h => simpa using h.symm
        | _ :: _ :: u, _, h =>
          obtain ⟨rfl, rfl, rfl, rfl⟩ : _ ∧ _ ∧ u = [] ∧ _ := by simpa using h.symm
          exact absurd hu hlast
      obtain rfl : k = d := by simpa using hv
      have hne : lifetime account l ≠ none := fun hnone =>
        lifetime_eq_none_iff.1 hnone o (List.singleton_sublist.1 hu) ho
      obtain ⟨life, hlife⟩ := Option.ne_none_iff_exists'.1 hne
      cases hclosed : life.closed with
      | none =>
        refine ⟨{ life with closed := some k.date }, k.date, ?_, rfl, le_rfl⟩
        simp [hlife, Lifetime.after, hclosed, hk]
      | some day =>
        obtain ⟨o', k', hsub', -, -, rfl⟩ := exists_of_closed hlife hclosed
        refine ⟨life, k'.date, by simp [hlife, Lifetime.after, hclosed], hclosed, ?_⟩
        exact hd k' (hsub'.subset (by simp)) k (by simp)

/-- When an account is closed before a day. -/
theorem closed_lt_iff (hl : l.Pairwise fun a b => a.date ≤ b.date) {date : Date} :
    (∃ life day, lifetime account l = some life ∧ life.closed = some day ∧ day < date) ↔
      ∃ o k, [o, k].Sublist l ∧ o.opens account ∧ k.closes account ∧ k.date < date := by
  constructor
  · rintro ⟨life, day, hlife, hclosed, hlt⟩
    obtain ⟨o, k, hsub, ho, hk, rfl⟩ := exists_of_closed hlife hclosed
    exact ⟨o, k, hsub, ho, hk, hlt⟩
  · rintro ⟨o, k, hsub, ho, hk, hlt⟩
    obtain ⟨life, day, hlife, hclosed, hle⟩ := closed_of_sublist hl hsub ho hk
    exact ⟨life, day, hlife, hclosed, hle.trans_lt hlt⟩

end Validation

end DoubleEntry
