import Mathlib.Data.List.Nodup
import Mathlib.Order.Defs.LinearOrder
import DoubleEntry.Directive

/-!
# The order of a ledger

Directives are ordered by day, and on one day by kind (`rank_lt_iff`). Sorting keeps the order of
what is sorted already (`sort_of_isSorted`), also when more directives are sorted into it:

* `exists_sort_append_eq`: what stands before and after a directive then.
* `sublist_iff_rank_lt`: of two directives on different ranks, the smaller rank stands first.
* `interleaves_sort`: the old directives stay in their order, and the new ones come as late as their
  ranks allow.
-/

namespace DoubleEntry

/-- The ordinal determines the day: a month has fewer than 100 days, and a year fewer than 100
months. -/
theorem Date.ordinal_injective : Function.Injective Date.ordinal := by
  intro a b h
  have bound (d : Date) : d.month < 100 ∧ d.day < 100 := by
    have hd := d.day_le
    have hp := d.day_pos
    unfold daysInMonth at hd
    split at hd <;> first | omega | (split at hd <;> omega)
  obtain ⟨ha, ha'⟩ := bound a
  obtain ⟨hb, hb'⟩ := bound b
  unfold ordinal at h
  have hyear : a.year = b.year := by omega
  have hmonth : a.month = b.month := by omega
  have hday : a.day = b.day := by omega
  cases a
  cases b
  simp_all

instance : LinearOrder Date where
  le_refl a := Nat.le_refl a.ordinal
  le_trans _ _ _ hab hbc := Nat.le_trans hab hbc
  lt_iff_le_not_ge a b := Nat.lt_iff_le_and_not_ge
  le_antisymm a b hab hba := Date.ordinal_injective (Nat.le_antisymm hab hba)
  le_total a b := Nat.le_total a.ordinal b.ordinal
  toDecidableLE := inferInstance

namespace Directive

variable {a b d : Directive} {l before after extra : List Directive}

/-! ## Ranks -/

theorem Body.priority_lt (b : Body) : b.priority < 12 := by
  cases b <;> simp [priority]

theorem rank_lt_iff :
    a.rank < b.rank ↔ a.date < b.date ∨ a.date = b.date ∧ a.body.priority < b.body.priority := by
  have ha := a.body.priority_lt
  have hb := b.body.priority_lt
  rw [← Date.ordinal_injective.eq_iff]
  show _ ↔ a.date.ordinal < b.date.ordinal ∨ _
  unfold rank
  omega

theorem rank_ne_of_priority_ne (h : a.body.priority ≠ b.body.priority) : a.rank ≠ b.rank := by
  have ha := a.body.priority_lt
  have hb := b.body.priority_lt
  unfold rank
  omega

theorem date_le_of_rank_le (h : a.rank ≤ b.rank) : a.date ≤ b.date := by
  have hb := b.body.priority_lt
  show a.date.ordinal ≤ b.date.ordinal
  unfold rank at h
  omega

/-- On one day, assertions come before transactions. -/
theorem transaction_rank_lt_iff {t : Transaction} {b : Assertion} (ha : a.body = .transaction t)
    (hb : d.body = .balance b) : a.rank < d.rank ↔ a.date < d.date := by
  simp [rank_lt_iff, ha, hb, Body.priority]

theorem rank_lt_transaction_iff {t : Transaction} {b : Assertion} (ha : a.body = .transaction t)
    (hb : d.body = .balance b) : d.rank < a.rank ↔ d.date < a.date ∨ d.date = a.date := by
  simp [rank_lt_iff, ha, hb, Body.priority]

theorem transaction_rank_ne {t : Transaction} {b : Assertion} (ha : a.body = .transaction t)
    (hb : d.body = .balance b) : a.rank ≠ d.rank :=
  rank_ne_of_priority_ne (by simp [ha, hb, Body.priority])

/-! ## Sorting -/

/-- The ranks do not decrease. -/
def IsSorted (l : List Directive) : Prop := l.Pairwise fun a b => a.rank ≤ b.rank

instance : DecidablePred IsSorted := fun l => inferInstanceAs (Decidable (l.Pairwise _))

theorem isSorted_iff : IsSorted l ↔ l.Pairwise fun a b => decide (a.rank ≤ b.rank) := by
  simp [IsSorted]

theorem rank_trans (a b c : Directive) (hab : decide (a.rank ≤ b.rank))
    (hbc : decide (b.rank ≤ c.rank)) : decide (a.rank ≤ c.rank) := by
  simp_all only [decide_eq_true_eq]
  exact Nat.le_trans hab hbc

theorem rank_total (a b : Directive) : decide (a.rank ≤ b.rank) || decide (b.rank ≤ a.rank) := by
  simpa using Nat.le_total a.rank b.rank

theorem isSorted_sort (l : List Directive) : IsSorted (sort l) :=
  isSorted_iff.2 (List.pairwise_mergeSort rank_trans rank_total l)

theorem sort_perm (l : List Directive) : (sort l).Perm l := List.mergeSort_perm l _

theorem sort_of_isSorted (h : IsSorted l) : sort l = l :=
  List.mergeSort_of_pairwise (isSorted_iff.1 h)

/-- If no two directives have the same rank, there is only one way to sort them. -/
theorem sort_eq_of_perm {l' : List Directive} (hperm : l.Perm l')
    (h : l'.Pairwise fun a b => a.rank < b.rank) : sort l = l' := by
  have hsorted : IsSorted l' := h.imp fun hab => Nat.le_of_lt hab
  have hdistinct : (l'.map rank).Nodup := List.pairwise_map.2 (h.imp fun hab => Nat.ne_of_lt hab)
  refine ((sort_perm l).trans hperm).eq_of_pairwise ?_ (isSorted_sort l) hsorted
  intro a b ha hb hab hba
  exact List.inj_on_of_nodup_map hdistinct (((sort_perm l).trans hperm).mem_iff.1 ha) hb
    (Nat.le_antisymm hab hba)

/-- Sorting is stable. -/
theorem sublist_sort (h : IsSorted before) (hs : before.Sublist l) : before.Sublist (sort l) :=
  List.sublist_mergeSort rank_trans rank_total (isSorted_iff.1 h) hs

/-- In a sorted ledger, nothing before a directive has a later date, and nothing after it an earlier
one. -/
theorem IsSorted.date_le (h : IsSorted (before ++ d :: after)) :
    (∀ a ∈ before, a.date ≤ d.date) ∧ ∀ a ∈ after, d.date ≤ a.date := by
  obtain ⟨-, hafter, hbefore⟩ := List.pairwise_append.1 h
  exact ⟨fun a ha => date_le_of_rank_le (hbefore a ha d (by simp)),
    fun a ha => date_le_of_rank_le ((List.pairwise_cons.1 hafter).1 a ha)⟩

/-- In a sorted ledger, smaller ranks stand before larger ones. -/
theorem sublist_iff_rank_lt (h : IsSorted l) (ha : a ∈ l) (hb : b ∈ l) (hne : a.rank ≠ b.rank) :
    [a, b].Sublist l ↔ a.rank < b.rank := by
  constructor
  · intro hs
    have hle := (List.pairwise_pair.1 (h.sublist hs))
    omega
  · intro hlt
    obtain ⟨before, after, rfl⟩ := List.append_of_mem ha
    refine List.Sublist.trans ?_ (List.sublist_append_right before _)
    refine List.Sublist.cons_cons a (List.singleton_sublist.2 ?_)
    rcases List.mem_append.1 hb with hb | hb
    · have hle := (List.pairwise_append.1 h).2.2 b hb a (by simp)
      omega
    · refine (List.mem_cons.1 hb).resolve_left ?_
      rintro rfl
      exact hne rfl

/-- When more directives are sorted into a sorted ledger, those of smaller rank than `d` come before
it and those of larger rank after it. -/
theorem exists_sort_append_eq (h : IsSorted (before ++ d :: after))
    (hextra : ∀ t ∈ extra, t.rank ≠ d.rank) :
    ∃ before' after', sort (before ++ d :: after ++ extra) = before' ++ d :: after' ∧
      before'.Perm (before ++ extra.filter (·.rank < d.rank)) := by
  have hsub := sublist_sort h (List.sublist_append_left _ extra)
  obtain ⟨u, r, hur, hu, hr⟩ := List.append_sublist_iff.1 hsub
  obtain ⟨r₁, r₂, rfl, hd, hafter⟩ := List.cons_sublist_iff.1 hr
  obtain ⟨v, w, rfl⟩ := List.append_of_mem hd
  have hsort : sort (before ++ d :: after ++ extra) = (u ++ v) ++ d :: (w ++ r₂) := by
    simpa using hur
  refine ⟨u ++ v, w ++ r₂, hsort, ?_⟩
  -- What the two sides have gained are the extra directives.
  obtain ⟨x, hx⟩ := (hu.trans (List.sublist_append_left u v)).exists_perm_append
  obtain ⟨y, hy⟩ := (hafter.trans (List.sublist_append_right w r₂)).exists_perm_append
  have hxy : (x ++ y).Perm extra := by
    have hperm := (sort_perm (before ++ d :: after ++ extra)).symm
    rw [hsort] at hperm
    have h' := hperm.trans (hx.append (hy.cons d))
    rw [List.perm_iff_count] at h' ⊢
    intro t
    have := h' t
    simp only [List.count_append, List.count_cons] at this ⊢
    omega
  have hsorted := isSorted_sort (before ++ d :: after ++ extra)
  rw [hsort] at hsorted
  obtain ⟨-, hright, hleft⟩ := List.pairwise_append.1 hsorted
  have hxd : ∀ t ∈ x, t.rank < d.rank := by
    intro t ht
    have hle := hleft t (hx.mem_iff.2 (by simp [ht])) d (by simp)
    have hne := hextra t (hxy.mem_iff.1 (by simp [ht]))
    omega
  have hyd : ∀ t ∈ y, ¬t.rank < d.rank := by
    intro t ht
    have hle := (List.pairwise_cons.1 hright).1 t (hy.mem_iff.2 (by simp [ht]))
    omega
  refine hx.trans (List.Perm.append_left before ?_)
  have hfilter := hxy.filter (·.rank < d.rank)
  rwa [List.filter_append, List.filter_eq_self.2 (by simpa using hxd),
    List.filter_eq_nil_iff.2 (by simpa using hyd), List.append_nil] at hfilter

/-! ## Sorting into a sorted ledger -/

/-- A ledger that has the directives of two ledgers, each in their order. Those of the second stand
as late as their ranks allow: after them come only such directives of the first as have a larger
rank. -/
inductive Interleaves : List Directive → List Directive → List Directive → Prop
  | nil : Interleaves [] [] []
  | old {d : Directive} {l made merged : List Directive} (h : Interleaves l made merged) :
    Interleaves (d :: l) made (d :: merged)
  | new {t : Directive} {l made merged : List Directive} (hrank : ∀ d ∈ l, t.rank < d.rank)
    (h : Interleaves l made merged) : Interleaves l (t :: made) (t :: merged)

namespace Interleaves

variable {l made merged : List Directive}

theorem of_nil_left (made : List Directive) : Interleaves [] made made := by
  induction made with
  | nil => exact .nil
  | cons t made ih => exact .new (by simp) ih

theorem of_nil_right (l : List Directive) : Interleaves l [] l := by
  induction l with
  | nil => exact .nil
  | cons d l ih => exact .old ih

/-- What the new directives have nothing of is as it was. -/
theorem flatMap_eq {β : Type} {f : Directive → List β} (h : Interleaves l made merged)
    (hmade : ∀ t ∈ made, f t = []) : merged.flatMap f = l.flatMap f := by
  induction h with
  | nil => rfl
  | old _ ih => rw [List.flatMap_cons, List.flatMap_cons, ih hmade]
  | new _ _ ih =>
    obtain ⟨ht, hmade⟩ := List.forall_mem_cons.1 hmade
    rw [List.flatMap_cons, ht, List.nil_append, ih hmade]

/-- A directive that is put in front of a ledger comes after what has a smaller rank. -/
theorem insert {first last : List Directive} (h : Interleaves l made (first ++ last))
    (hl : ∀ a ∈ l, d.rank ≤ a.rank) (hfirst : ∀ a ∈ first, a.rank < d.rank) :
    Interleaves (d :: l) made (first ++ d :: last) := by
  induction first generalizing made with
  | nil => exact .old h
  | cons a first ih =>
    obtain ⟨ha, hfirst⟩ := List.forall_mem_cons.1 hfirst
    cases h with
    | old h =>
      -- Nothing of the ledger itself has a smaller rank.
      have hle := hl a List.mem_cons_self
      omega
    | new hrank h => exact .new (List.forall_mem_cons.2 ⟨ha, hrank⟩) (ih h hfirst)

end Interleaves

/-- Directives that are sorted into a sorted ledger leave it in its order. -/
theorem interleaves_sort (h : IsSorted l) (made : List Directive) :
    Interleaves l (sort made) (sort (l ++ made)) := by
  induction l with
  | nil => exact .of_nil_left _
  | cons d l ih =>
    obtain ⟨hd, hl⟩ := List.pairwise_cons.1 h
    obtain ⟨first, last, hsort, hrest, hfirst⟩ : ∃ first last,
        sort (d :: (l ++ made)) = first ++ d :: last ∧ sort (l ++ made) = first ++ last ∧
          ∀ a ∈ first, !decide (d.rank ≤ a.rank) :=
      List.mergeSort_cons rank_trans rank_total d (l ++ made)
    rw [List.cons_append, hsort]
    exact (hrest ▸ ih hl).insert hd fun a ha => by simpa using hfirst a ha

end Directive

end DoubleEntry
