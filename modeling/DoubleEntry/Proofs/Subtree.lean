import DoubleEntry.Proofs.Holdings

/-!
# What an account holds with the accounts below it

The units of a subtree are what the account itself holds and then what the accounts below it hold
(`Holdings.subtreeUnits_eq`), for the name of an account comes before the names below it. So the two
numbers differ by what was posted below the account (`posted_isWithin`).
-/

namespace DoubleEntry

/-- Whether the account is below `top`, and not `top` itself. -/
def Account.isBelow (account top : Account) : Bool :=
  (top.toList ++ [':']).isPrefixOf account.toList

namespace Account

theorem isWithin_eq (account top : Account) :
    account.isWithin top = (account == top || account.isBelow top) := rfl

/-- An account comes after those that it is below. -/
theorem compare_of_isBelow {account top : Account} (h : account.isBelow top) :
    compare top account = .lt := by
  obtain ⟨rest, hrest⟩ := List.isPrefixOf_iff_prefix.1 h
  refine compareOfLessAndEq_eq_lt.2 (String.lt_iff.2 ?_)
  have hlt : top.toList ++ [] < top.toList ++ ':' :: rest :=
    List.append_left_lt (List.nil_lt_cons ':' rest)
  rwa [List.append_nil, List.append_cons, hrest] at hlt

/-- No account is below itself. -/
theorem not_isBelow_self (account : Account) : ¬account.isBelow account := by
  intro h
  have := compare_of_isBelow h
  simp at this

end Account

/-- What is posted within an account is posted to it or below it. -/
theorem posted_isWithin (ps : List Posting) (account : Account) (c : Currency) :
    posted ps (Account.isWithin · account) c =
      posted ps (· == account) c + posted ps (Account.isBelow · account) c := by
  induction ps with
  | nil => simp
  | cons p ps ih =>
    have hmoved : p.moved (Account.isWithin · account) c =
        p.moved (· == account) c + p.moved (Account.isBelow · account) c := by
      simp only [Posting.moved, Account.isWithin_eq]
      by_cases h : p.account = account
      · simp [h, Account.not_isBelow_self]
      · simp [h]
    rw [posted_cons, posted_cons, posted_cons, hmoved, ih]
    ring

namespace Holdings

/-- The units of a currency in the accounts below one, in the order of their names. -/
def unitsBelow (h : Holdings) (account : Account) (c : Currency) : List Decimal :=
  (h.toList.filter fun e => Account.isBelow e.1 account).map fun e => e.2.units c

theorem filter_or {α : Type} {P Q : α → Bool} {l : List α}
    (h : l.Pairwise fun x y => ¬(Q x ∧ P y)) (hPQ : ∀ x ∈ l, ¬(P x ∧ Q x)) :
    l.filter (fun x => P x || Q x) = l.filter P ++ l.filter Q := by
  induction l with
  | nil => rfl
  | cons x l ih =>
    obtain ⟨hx, hl⟩ := List.pairwise_cons.1 h
    have ih := ih hl fun y hy => hPQ y (List.mem_cons_of_mem x hy)
    cases hP : P x with
    | true =>
      have hQ : ¬Q x := fun hQ => hPQ x (by simp) ⟨hP, hQ⟩
      simp [hP, hQ, ih]
    | false =>
      cases hQ : Q x with
      | true =>
        have hnone : l.filter P = [] := List.filter_eq_nil_iff.2 fun y hy hPy => hx y hy ⟨hQ, hPy⟩
        simp [hP, hQ, ih, hnone]
      | false => simp [hP, hQ, ih]

/-- The sum over a subtree starts with what the account itself holds. -/
theorem subtreeUnits_eq (h : Holdings) (account : Account) (c : Currency) :
    h.subtreeUnits account c =
      (h.unitsBelow account c).foldlM Decimal.add ((h.inventory account).units c) := by
  have hfilter : (h.toList.filter fun e => Account.isWithin e.1 account) =
      (h.toList.filter fun e => e.1 == account) ++
        h.toList.filter fun e => Account.isBelow e.1 account := by
    refine filter_or ?_ ?_
    · refine Std.TreeMap.ordered_keys_toList.imp fun {x y} hxy => ?_
      rintro ⟨hx, hy⟩
      obtain rfl : y.1 = account := by simpa using hy
      exact Std.OrientedCmp.not_lt_of_lt hxy (Account.compare_of_isBelow hx)
    · rintro x - ⟨hx, hx'⟩
      obtain rfl : x.1 = account := by simpa using hx
      exact Account.not_isBelow_self _ hx'
  have hself : ((h.toList.filter fun e => e.1 == account).map fun e => e.2.units c).foldlM
      Decimal.add .zero = .exact ((h.inventory account).units c) := by
    unfold inventory
    rw [Std.TreeMap.getD_eq_getD_getElem?]
    cases ha : h[account]? with
    | none =>
      rw [← others_eq_toList ha, filter_others]
      rfl
    | some inv =>
      have hperm := (toList_perm ha).filter fun e => e.1 == account
      rw [List.filter_cons_of_pos (by simp), filter_others] at hperm
      rw [List.perm_singleton.1 hperm]
      rfl
  show ((h.toList.filter fun e => Account.isWithin e.1 account).map fun e => e.2.units c).foldlM
    Decimal.add .zero = _
  rw [hfilter, List.map_append, List.foldlM_append, hself]
  rfl

end Holdings

end DoubleEntry
