import Mathlib.Data.Char
import Mathlib.Data.List.Lex
import DoubleEntry.Proofs.Subtree

/-!
# The tree of accounts

An account is below another one if its name goes on after the other name with a colon, so exactly if
its components go on after the components of the other. Accounts ordered component by component are
therefore a walk through the tree, whatever characters the components are made of.

* `Account.mem_ancestors_iff`: the ancestors of an account are those that it is below.
* `Account.isWithin_iff`: a subtree by its components.
* `Account.isBefore_iff`: the order of a walk is the lexicographic one.
* `isBefore_of_isBelow`, `isWithin_of_between`: an account comes before those below it, and nothing
  else comes in between.
-/

namespace DoubleEntry

/-! ## Lists of components -/

section Lists

variable {α : Type}

theorem intercalate_append (sep : α) {xs ys : List (List α)} (hx : xs ≠ []) (hy : ys ≠ []) :
    [sep].intercalate (xs ++ ys) = [sep].intercalate xs ++ sep :: [sep].intercalate ys := by
  induction xs with
  | nil => exact absurd rfl hx
  | cons x xs ih =>
    cases xs with
    | nil => simp [List.intercalate_cons_of_ne_nil hy]
    | cons x' xs =>
      have hrest : x' :: xs ++ ys ≠ [] := List.cons_ne_nil _ _
      rw [List.cons_append, List.intercalate_cons_of_ne_nil hrest, ih (List.cons_ne_nil _ _),
        List.intercalate_cons_of_ne_nil (List.cons_ne_nil x' xs)]
      simp

variable [LinearOrder α]

theorem le_append (l more : List α) : l ≤ l ++ more := by
  induction l with
  | nil => cases more with
    | nil => exact le_refl _
    | cons x more => exact le_of_lt List.Lex.nil
  | cons x l ih => exact List.cons_le_cons x ih

/-- Between two lists with a common beginning, all lists begin so. -/
theorem prefix_of_le_of_le {p x y z : List α} (hxy : p ++ x ≤ y) (hyz : y ≤ p ++ z) : p <+: y := by
  induction p generalizing y with
  | nil => exact List.nil_prefix
  | cons d p ih =>
    cases y with
    | nil => exact absurd List.Lex.nil (not_lt.2 hxy)
    | cons e y =>
      have hde : d ≤ e := by
        by_contra hlt
        exact not_lt.2 hxy (List.Lex.rel (not_le.1 hlt))
      have hed : e ≤ d := by
        by_contra hlt
        exact not_lt.2 hyz (List.Lex.rel (not_le.1 hlt))
      obtain rfl := le_antisymm hde hed
      have hxy' : p ++ x ≤ y := not_lt.1 fun hlt => not_lt.2 hxy (List.Lex.cons hlt)
      have hyz' : y ≤ p ++ z := not_lt.1 fun hlt => not_lt.2 hyz (List.Lex.cons hlt)
      exact (List.prefix_cons_inj d).2 (ih hxy' hyz')

end Lists

namespace Account

variable {a b c account top : Account}

theorem isBelow_iff :
    account.isBelow top ↔ ∃ rest, account.toList = top.toList ++ ':' :: rest := by
  unfold isBelow
  rw [List.isPrefixOf_iff_prefix]
  constructor
  · rintro ⟨rest, h⟩
    exact ⟨rest, by rw [← h, List.append_assoc]; rfl⟩
  · rintro ⟨rest, h⟩
    exact ⟨rest, by rw [h, List.append_assoc]; rfl⟩

/-! ## Ancestors -/

/-- The parts of a name in front of its colons. -/
theorem mem_partsBeforeColons_iff {above cs part : List Char} :
    part ∈ partsBeforeColons above cs ↔
      ∃ first rest, cs = first ++ ':' :: rest ∧ part = above ++ first := by
  induction cs generalizing above with
  | nil => simp [partsBeforeColons]
  | cons d cs ih =>
    have hdeeper : part ∈ partsBeforeColons (above ++ [d]) cs ↔
        ∃ first rest, cs = first ++ ':' :: rest ∧ part = above ++ d :: first := by
      simp only [ih, List.append_assoc, List.singleton_append]
    have hcases : (∃ first rest, d :: cs = first ++ ':' :: rest ∧ part = above ++ first) ↔
        (d = ':' ∧ part = above) ∨
          ∃ first rest, cs = first ++ ':' :: rest ∧ part = above ++ d :: first := by
      constructor
      · rintro ⟨_ | ⟨e, first⟩, rest, hcs, rfl⟩
        · exact .inl ⟨(List.cons.inj hcs).1, List.append_nil _⟩
        · obtain ⟨rfl, rfl⟩ := List.cons.inj hcs
          exact .inr ⟨first, rest, rfl, rfl⟩
      · rintro (⟨rfl, rfl⟩ | ⟨first, rest, rfl, rfl⟩)
        · exact ⟨[], cs, rfl, (List.append_nil _).symm⟩
        · exact ⟨d :: first, rest, rfl, rfl⟩
    rw [hcases, ← hdeeper, partsBeforeColons]
    by_cases hd : d = ':' <;> simp [hd]

/-- The ancestors are what stands before a colon of the name. -/
theorem mem_ancestors_iff : a ∈ account.ancestors ↔ account.isBelow a := by
  rw [isBelow_iff, ancestors, List.mem_map]
  simp only [mem_partsBeforeColons_iff, List.nil_append]
  constructor
  · rintro ⟨_, ⟨first, rest, h, rfl⟩, rfl⟩
    exact ⟨rest, by rw [h, String.toList_ofList]⟩
  · rintro ⟨rest, h⟩
    exact ⟨_, ⟨a.toList, rest, h, rfl⟩, String.ofList_toList⟩

/-! ## Components -/

theorem components_ne_nil (account : Account) : account.components ≠ [] :=
  List.splitOn_ne_nil _ _

/-- A name is its components with colons between them. -/
theorem intercalate_components (account : Account) :
    [':'].intercalate account.components = account.toList :=
  List.intercalate_splitOn ':'

/-- The components tell the account. -/
theorem components_injective (h : a.components = b.components) : a = b := by
  rw [← String.toList_inj, ← intercalate_components, h, intercalate_components]

/-- The components of an account below another one go on after those of the other. -/
theorem isBelow_iff_components :
    account.isBelow top ↔ ∃ more, more ≠ [] ∧ account.components = top.components ++ more := by
  rw [isBelow_iff]
  constructor
  · rintro ⟨rest, h⟩
    refine ⟨rest.splitOn ':', List.splitOn_ne_nil _ _, ?_⟩
    rw [components, h, List.splitOn_append_cons_self]
    rfl
  · rintro ⟨more, hmore, h⟩
    refine ⟨[':'].intercalate more, ?_⟩
    rw [← intercalate_components, h, intercalate_append ':' top.components_ne_nil hmore,
      intercalate_components]

/-- The accounts within another one are those whose components start with its components. -/
theorem isWithin_iff : account.isWithin top ↔ top.components <+: account.components := by
  rw [isWithin_eq, Bool.or_eq_true, isBelow_iff_components, beq_iff_eq]
  constructor
  · rintro (rfl | ⟨more, -, h⟩)
    · exact List.prefix_refl _
    · exact ⟨more, h.symm⟩
  · rintro ⟨_ | ⟨x, more⟩, h⟩
    · exact .inl (components_injective (by simpa using h.symm))
    · exact .inr ⟨x :: more, List.cons_ne_nil _ _, h.symm⟩

theorem isWithin_self (account : Account) : account.isWithin account :=
  isWithin_iff.2 (List.prefix_refl _)

theorem isWithin_of_isBelow (h : account.isBelow top) : account.isWithin top := by
  rw [isWithin_eq, h, Bool.or_true]

theorem isWithin_trans (h : a.isWithin b) (h' : b.isWithin c) : a.isWithin c :=
  isWithin_iff.2 ((isWithin_iff.1 h').trans (isWithin_iff.1 h))

/-! ## The order of a walk -/

/-- Accounts are compared component by component. -/
theorem isBefore_iff : a.isBefore b ↔ a.components ≤ b.components := by
  have hlex : (fun x y : List Char => x.lex y fun c d => c.toNat < d.toNat) =
      fun x y => decide (x < y) := by
    funext x y
    rw [Bool.eq_iff_iff, decide_eq_true_iff]
    exact List.lex_eq_true_iff_lt
  rw [← not_lt, isBefore, hlex, Bool.not_eq_true', ← Bool.not_eq_true]
  exact not_congr List.lex_eq_true_iff_lt

theorem isBefore_trans (h : a.isBefore b) (h' : b.isBefore c) : a.isBefore c :=
  isBefore_iff.2 ((isBefore_iff.1 h).trans (isBefore_iff.1 h'))

theorem isBefore_total (a b : Account) : a.isBefore b ∨ b.isBefore a := by
  rw [isBefore_iff, isBefore_iff]
  exact le_total _ _

theorem isBefore_antisymm (h : a.isBefore b) (h' : b.isBefore a) : a = b :=
  components_injective (le_antisymm (isBefore_iff.1 h) (isBefore_iff.1 h'))

/-- An account comes before those below it. -/
theorem isBefore_of_isBelow (h : account.isBelow top) : top.isBefore account := by
  obtain ⟨more, -, h⟩ := isBelow_iff_components.1 h
  rw [isBefore_iff, h]
  exact le_append _ _

/-- What comes between two accounts within another one is within it too. -/
theorem isWithin_of_between (ha : a.isWithin top) (hc : c.isWithin top) (hab : a.isBefore b)
    (hbc : b.isBefore c) : b.isWithin top := by
  obtain ⟨x, hx⟩ := isWithin_iff.1 ha
  obtain ⟨z, hz⟩ := isWithin_iff.1 hc
  rw [isBefore_iff, ← hx] at hab
  rw [isBefore_iff, ← hz] at hbc
  exact isWithin_iff.2 (prefix_of_le_of_le hab hbc)

end Account

end DoubleEntry
