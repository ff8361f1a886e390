import DoubleEntry.Proofs.Booking.Unknowns
import DoubleEntry.Proofs.Booking.Weights

/-!
# The postings in another order

Interpolation of a transaction and of one with the same postings in another order goes through the
same steps, with totals of the same values. So both fail, or both give a result, and what stands in
the place of a posting is alike in the two: the numbers that were filled in have the same values,
but perhaps not as many places.

* `Posting.FilledAlike`: the same posting, but for the places of a number that was filled in.
* `SolvedAlike`: the states of two runs that solve for the missing numbers.
* `Transaction.Reorders`, `Transaction.AddsExactly`: the same postings in another order, and sums
  that do not round or overflow.
* `Transaction.inPlaceOf`: what interpolation puts in the place of a posting.
* `Transaction.interpolate_alike`: interpolation of the two transactions, side by side.
-/

namespace DoubleEntry

/-! ## Numbers of the same value -/

namespace Decimal

variable {a a' b c : Decimal}

/-- The same number, but perhaps with another number of places. -/
def Alike (a b : Decimal) : Prop := a.value = b.value ∧ a.negative = b.negative

theorem negative_iff (h : ¬a.isZero) : a.negative ↔ a.value < 0 := by
  have hsize : 0 < a.size := lt_of_le_of_ne a.size_nonneg fun hzero =>
    h (isZero_iff.2 (abs_eq_zero.1 hzero.symm))
  rw [value_eq]
  cases a.negative with
  | false => simpa using hsize.le
  | true => simpa using hsize

/-- Numbers of the same value are alike, if zero has no sign. -/
theorem Alike.of_value (h : a.value = b.value) (ha : a.isZero → a.negative = false)
    (hb : b.isZero → b.negative = false) : a.Alike b := by
  refine ⟨h, ?_⟩
  by_cases hz : a.isZero
  · rw [ha hz, hb (isZero_iff.2 (h ▸ isZero_iff.1 hz))]
  · have hz' : ¬b.isZero := fun hzero => hz (isZero_iff.2 (h ▸ isZero_iff.1 hzero))
    rw [Bool.eq_iff_iff, negative_iff hz, negative_iff hz', h]

/-- A quotient that is zero has no sign. -/
theorem negative_of_div (h : (a.div b).value? = some c) (hc : c.isZero) : c.negative = false := by
  unfold div at h
  split at h
  · cases h
  · split at h
    · obtain rfl := Option.some.inj h
      rfl
    · rw [value_outcome, divNonzero?] at h
      obtain ⟨full, -, h⟩ := Option.bind_eq_some_iff.1 h
      obtain ⟨hnegative, hcoefficient, -⟩ := ofParts?_eq_some h
      rw [hnegative, ← hcoefficient]
      simpa [isZero] using fun _ => hc

/-- Results of the same value are related, if that relates them. -/
theorem rel_of_map_value {R : Decimal → Decimal → Prop} {r r' : Option Decimal}
    (h : r.map value = r'.map value)
    (hR : ∀ c c', r = some c → r' = some c' → c.value = c'.value → R c c') :
    Option.Rel R r r' := by
  cases r with
  | none =>
    obtain rfl := Option.map_eq_none_iff.1 h.symm
    exact .none
  | some c =>
    obtain ⟨c', rfl, hc⟩ := Option.map_eq_some_iff.1 h.symm
    exact .some (hR c c' rfl rfl hc.symm)

theorem mul_alike (h : a.Alike a') (b : Decimal) :
    Option.Rel (fun c c' => c.value = c'.value) (a.mul b).value? (a'.mul b).value? :=
  rel_of_map_value (mul_congr h.1 rfl) fun _ _ _ _ => id

/-- A quotient that is zero has no sign, so quotients of the same value are alike. -/
theorem div_alike (h : a.value = a'.value) (b : Decimal) :
    Option.Rel Alike (a.div b).value? (a'.div b).value? :=
  rel_of_map_value (div_congr h rfl) fun _ _ hc hc' hvalue =>
    .of_value hvalue (negative_of_div hc) (negative_of_div hc')

end Decimal

theorem Totals.nonzero_eq_of_mem {t t' : Totals} (h : ∀ c, c ∈ t.nonzero ↔ c ∈ t'.nonzero) :
    t.nonzero = t'.nonzero :=
  eq_of_pairwise t.pairwise_nonzero t'.pairwise_nonzero h

theorem Totals.Alike.nonzero_eq {t t' : Totals} (h : t.Alike t') : t.nonzero = t'.nonzero := by
  refine nonzero_eq_of_mem fun c => ?_
  rw [mem_nonzero_iff, mem_nonzero_iff, Decimal.isZero_iff, Decimal.isZero_iff, h c]

/-! ## Postings that are filled in -/

section Weights

variable {n n' : Decimal}

/-- A cost is worth the same for numbers of units that are alike. -/
theorem Cost.totalFor?_alike (cost : Cost) (c : Currency) (h : n.Alike n') :
    Option.Rel (Option.Rel Amount.Alike) (cost.totalFor? ⟨n, c⟩).value?
      (cost.totalFor? ⟨n', c⟩).value? := by
  unfold totalFor?
  split
  · exact .some .none
  · exact .some .none
  · next perUnit _ _ =>
    refine Checked.rel_bind (Decimal.mul_alike h perUnit) fun product product' hproduct => ?_
    have hsum := Decimal.add_congr hproduct (Eq.refl (cost.total.getD .zero).value)
    refine Checked.rel_bind (Decimal.rel_of_map_value hsum fun _ _ _ _ => id)
      fun number number' hnumber => ?_
    exact .some (.some ⟨rfl, hnumber⟩)
  · refine .some (.some ⟨rfl, ?_⟩)
    rw [h.2]

theorem Price.convert_alike (price : Price) (c : Currency) (h : n.Alike n') :
    Option.Rel Amount.Alike (price.convert ⟨n, c⟩).value? (price.convert ⟨n', c⟩).value? := by
  cases price with
  | unit a =>
    refine Checked.rel_bind (Decimal.mul_alike h a.number) fun product product' hproduct => ?_
    exact .some ⟨rfl, hproduct⟩
  | total a =>
    refine .some ?_
    rw [h.2]
    exact ⟨rfl, rfl⟩

end Weights

namespace Posting

/-- The same posting, or the same filled in with numbers that are alike. -/
inductive FilledAlike : Posting → Posting → Prop
  | kept (p : Posting) : FilledAlike p p
  | filled (p : Posting) (c : Currency) {n n' : Decimal} (h : n.Alike n') :
    FilledAlike (p.fill ⟨n, c⟩) (p.fill ⟨n', c⟩)

variable {p p' : Posting}

/-- Postings filled in with numbers that are alike weigh alike. -/
theorem FilledAlike.weighsAlike (h : p.FilledAlike p') : p.WeighsAlike p' := by
  cases h with
  | kept => exact .refl p
  | filled p c h =>
    unfold WeighsAlike weight?
    simp only [amount?, fill]
    refine Checked.rel_bind (R := Option.Rel Amount.Alike) ?_ fun total total' htotal => ?_
    · cases p.cost with
      | none => exact .some .none
      | some cost => exact cost.totalFor?_alike c h
    · cases htotal with
      | some htotal => exact .some (.some htotal)
      | none =>
        cases p.price with
        | none => exact .some (.some ⟨rfl, h.1⟩)
        | some price =>
          refine Checked.rel_bind (price.convert_alike c h) fun a a' ha => ?_
          exact .some (.some ha)

end Posting

/-! ## Solving for the numbers -/

/-- What two runs have left over has the same values, and they have solved for the same numbers, but
for their places. -/
structure SolvedAlike (s s' : Totals × List (Currency × Decimal)) : Prop where
  leftOver : s.1.Alike s'.1
  numbers : List.Forall₂ (fun e e' => e.1 = e'.1 ∧ e.2.Alike e'.2) s.2 s'.2

section Solving

variable {s s' : Totals × List (Currency × Decimal)}

theorem solveNumber_alike (h : SolvedAlike s s') (m : Currency × Posting) :
    Checked.SameOutcome SolvedAlike (solveNumber s m).run.value? (solveNumber s' m).run.value? := by
  obtain ⟨c, p⟩ := m
  unfold solveNumber
  cases hbasis : p.basis? c with
  | none =>
    simp only [hbasis]
    exact .throw
  | some basis =>
    simp only [hbasis]
    split
    · exact .throw
    · have hvalue : (s.1.number basis.1).neg.value = (s'.1.number basis.1).neg.value := by
        rw [Decimal.value_neg, Decimal.value_neg, h.leftOver]
      refine (Checked.SameOutcome.lift (Decimal.div_alike hvalue _)).bind fun n n' _ _ hn => ?_
      refine .pure ⟨fun currency => ?_, ?_⟩
      · rw [Totals.number_erase, Totals.number_erase]
        split
        · rfl
        · exact h.leftOver currency
      · exact List.rel_append h.numbers (.cons ⟨rfl, hn⟩ .nil)

theorem SolvedAlike.lookup (h : SolvedAlike s s') (c : Currency) :
    ((s.2.lookup c).getD .zero).Alike ((s'.2.lookup c).getD .zero) := by
  obtain ⟨-, h⟩ := h
  generalize s.2 = l, s'.2 = l' at h
  induction h with
  | nil => exact ⟨rfl, rfl⟩
  | @cons e e' l l' he _ ih =>
    rw [List.lookup_cons, List.lookup_cons, he.1]
    split
    · exact he.2
    · exact ih

/-- With states that are alike a posting is completed alike. -/
theorem completed_alike (h : SolvedAlike s s') (p : Posting) :
    List.Forall₂ Posting.FilledAlike ((completed s.1 s.2 p).map (·.1))
      ((completed s'.1 s'.2 p).map (·.1)) := by
  cases hunits : p.units with
  | none =>
    rw [Posting.completed_of_open hunits, Posting.completed_of_open hunits, h.leftOver.nonzero_eq,
      List.forall₂_map_left_iff, List.forall₂_map_right_iff, List.forall₂_same]
    intro c hc
    have hne : ∀ {n : Decimal}, n.value = (s'.1.number c).value → ¬n.neg.isZero := by
      intro n hn hzero
      rw [Totals.mem_nonzero_iff, Decimal.isZero_iff, ← hn, ← neg_eq_zero,
        ← Decimal.value_neg] at hc
      exact hc (Decimal.isZero_iff.1 hzero)
    refine .filled _ c (.of_value ?_ ?_ ?_)
    · rw [Decimal.value_neg, Decimal.value_neg, h.leftOver]
    · exact fun hzero => absurd hzero (hne (h.leftOver c))
    · exact fun hzero => absurd hzero (hne rfl)
  | some units =>
    unfold completed
    cases units with
    | currencyOnly c =>
      simp only [hunits]
      exact .cons (.filled p c (h.lookup c)) .nil
    | _ =>
      simp only [hunits]
      exact .cons (.kept p) .nil

end Solving

/-! ## The same postings in another order -/

namespace Transaction

/-- The transaction has the same postings in another order, and is otherwise the same. -/
structure Reorders (t' t : Transaction) : Prop where
  postings : t'.postings.Perm t.postings
  rest : t' = { t with postings := t'.postings }

/-- Solves for the missing numbers, given what was written. -/
def solve (t : Transaction) : Filling (Totals × List (Currency × Decimal)) := do
  let written ← t.written
  (missingNumbers t.postings).foldlM solveNumber (written, [])

/-- What interpolation puts in the place of a posting; nothing if it fails. -/
def inPlaceOf (t : Transaction) (p : Posting) : List Posting :=
  match t.solve.run.value? with
  | some (.ok (leftOver, solved)) =>
    (completed leftOver solved (p.inContext t.sharedCurrency?)).map (·.1)
  | _ => []

/-- No sum of weights rounds or overflows, before anything is filled in and after that. -/
structure AddsExactly (t : Transaction) : Prop where
  written : AddExactly t.settled
  completed : ∀ s, t.solve.run.value? = some (.ok s) →
    AddExactly ((t.standIns s.1 s.2).map (·.1))

variable {t t' : Transaction}

theorem sharedCurrency?_eq_some {c : Currency} : t.sharedCurrency? = some c ↔
    t.postings.filterMap Posting.amount? ≠ [] ∧
      ∀ a ∈ t.postings.filterMap Posting.amount?, a.currency = c := by
  unfold sharedCurrency?
  cases t.postings.filterMap Posting.amount? with
  | nil => simp
  | cons a rest =>
    simp only [List.all_eq_true, decide_eq_true_eq, Option.ite_none_right_eq_some, Option.some_inj,
      List.forall_mem_cons]
    constructor
    · rintro ⟨hrest, rfl⟩
      exact ⟨List.cons_ne_nil a rest, rfl, hrest⟩
    · rintro ⟨-, rfl, hrest⟩
      exact ⟨hrest, rfl⟩

namespace Reorders

/-- The order of the postings does not matter to the currency that they share. -/
theorem sharedCurrency?_eq (h : t'.Reorders t) : t'.sharedCurrency? = t.sharedCurrency? := by
  have hamounts := h.postings.filterMap Posting.amount?
  refine Option.ext fun c => ?_
  rw [sharedCurrency?_eq_some, sharedCurrency?_eq_some, Ne, Ne, ← List.length_eq_zero_iff,
    ← List.length_eq_zero_iff, hamounts.length_eq]
  simp only [hamounts.mem_iff]

theorem settled_perm (h : t'.Reorders t) : t'.settled.Perm t.settled := by
  rw [settled, settled, h.sharedCurrency?_eq]
  exact h.postings.map _

theorem openCount_eq (h : t'.Reorders t) : t'.settled.countP (·.units.isNone) =
    t.settled.countP (·.units.isNone) :=
  h.settled_perm.countP_eq _

theorem nodup_iff (h : t'.Reorders t) : (t'.postings.filterMap Posting.missingNumber?).Nodup ↔
    (t.postings.filterMap Posting.missingNumber?).Nodup :=
  (h.postings.filterMap _).nodup_iff

/-- If no two postings name one currency alone, then missing numbers are solved for in one order. -/
theorem missingNumbers_eq (h : t'.Reorders t)
    (hnodup : (t.postings.filterMap Posting.missingNumber?).Nodup) :
    missingNumbers t'.postings = missingNumbers t.postings := by
  refine List.Perm.eq_of_pairwise ?_ (pairwise_missingNumbers (h.nodup_iff.2 hnodup))
    (pairwise_missingNumbers hnodup) ?_
  · intro m m' _ _ hlt hgt
    exact absurd (String.lt_trans hlt hgt) (String.lt_irrefl m.1)
  · exact (List.mergeSort_perm _ _).trans
      ((h.postings.filterMap _).trans (List.mergeSort_perm _ _).symm)

end Reorders

/-- Finds the currencies of numbers alone. -/
def settle (ps : List Posting) (shared : Option Currency) : Filling (List Posting) :=
  ps.mapM (·.withCurrency shared)

/-- This gives a result or an error, for there is no arithmetic. -/
theorem exists_settle (ps : List Posting) (shared : Option Currency) :
    ∃ outcome, (settle ps shared).run.value? = some outcome := by
  unfold settle
  induction ps with
  | nil => exact ⟨.ok [], rfl⟩
  | cons p ps ih =>
    obtain ⟨rest, hrest⟩ := ih
    have hfirst : ∃ first, (p.withCurrency shared).run.value? = some first := by
      unfold Posting.withCurrency
      split
      · split
        · exact ⟨.ok _, rfl⟩
        · exact ⟨.error _, rfl⟩
      · exact ⟨.ok _, rfl⟩
    obtain ⟨first, hfirst⟩ := hfirst
    rw [List.mapM_cons, Checked.SameOutcome.value?_run_bind, hfirst, Option.bind_some]
    cases first with
    | error e => exact ⟨.error e, rfl⟩
    | ok q =>
      simp only
      rw [Checked.SameOutcome.value?_run_bind, hrest, Option.bind_some]
      cases rest with
      | error e => exact ⟨.error e, rfl⟩
      | ok qs => exact ⟨.ok (q :: qs), rfl⟩

/-- In both orders every number alone has a currency, or one has none. -/
theorem Reorders.settled_alike (h : t'.Reorders t) :
    Checked.SameOutcome (fun ps ps' => ps = t.settled ∧ ps' = t'.settled)
      (settle t.postings t.sharedCurrency?).run.value?
      (settle t'.postings t'.sharedCurrency?).run.value? := by
  have hresult {t : Transaction} {ps : List Posting} :
      (settle t.postings t.sharedCurrency?).run.value? = some (.ok ps) ↔
        (∀ p ∈ t.postings, ¬p.LacksCurrency t.sharedCurrency?) ∧ ps = t.settled := by
    rw [← Checked.gives_false]
    exact Checked.mapM_gives_ok fun _ _ => Posting.withCurrency_gives
  have hlacks : (∀ p ∈ t.postings, ¬p.LacksCurrency t.sharedCurrency?) ↔
      ∀ p ∈ t'.postings, ¬p.LacksCurrency t'.sharedCurrency? := by
    simp only [h.sharedCurrency?_eq, h.postings.mem_iff]
  obtain ⟨outcome, houtcome⟩ := exists_settle t.postings t.sharedCurrency?
  obtain ⟨outcome', houtcome'⟩ := exists_settle t'.postings t'.sharedCurrency?
  rw [houtcome, houtcome']
  by_cases hall : ∀ p ∈ t.postings, ¬p.LacksCurrency t.sharedCurrency?
  · rw [hresult.2 ⟨hall, rfl⟩, Option.some_inj] at houtcome
    rw [hresult.2 ⟨hlacks.1 hall, rfl⟩, Option.some_inj] at houtcome'
    subst houtcome houtcome'
    exact .result ⟨rfl, rfl⟩
  · cases outcome with
    | ok ps => exact absurd (hresult.1 houtcome).1 hall
    | error e =>
      cases outcome' with
      | ok ps => exact absurd (hlacks.2 (hresult.1 houtcome').1) hall
      | error e' => exact .error

/-- The result of interpolation has in the place of each posting what is put there. -/
def Replaces (t : Transaction) (r : Interpolation) : Prop :=
  r.transaction = { t with postings := t.postings.flatMap t.inPlaceOf }

theorem inPlaceOf_of_solve {s : Totals × List (Currency × Decimal)}
    (h : t.solve.run.value? = some (.ok s)) (p : Posting) :
    t.inPlaceOf p = (completed s.1 s.2 (p.inContext t.sharedCurrency?)).map (·.1) := by
  rw [inPlaceOf, h]

theorem map_standIns_of_solve {s : Totals × List (Currency × Decimal)}
    (h : t.solve.run.value? = some (.ok s)) :
    (t.standIns s.1 s.2).map (·.1) = t.postings.flatMap t.inPlaceOf := by
  rw [t.map_standIns]
  exact List.flatMap_congr fun p _ => (inPlaceOf_of_solve h p).symm

section Solved

variable {s s' : Totals × List (Currency × Decimal)}

/-- In the place of a posting stands what is alike. -/
theorem Reorders.inPlaceOf_alike (h : t'.Reorders t) (hs : t.solve.run.value? = some (.ok s))
    (hs' : t'.solve.run.value? = some (.ok s')) (halike : SolvedAlike s s') (p : Posting) :
    List.Forall₂ Posting.FilledAlike (t.inPlaceOf p) (t'.inPlaceOf p) := by
  rw [inPlaceOf_of_solve hs, inPlaceOf_of_solve hs', h.sharedCurrency?_eq]
  exact completed_alike halike _

/-- What was completed has residuals of the same values. -/
theorem Reorders.residual_alike (h : t'.Reorders t) (hs : t.solve.run.value? = some (.ok s))
    (hs' : t'.solve.run.value? = some (.ok s')) (halike : SolvedAlike s s') (ht : t.AddsExactly)
    (ht' : t'.AddsExactly) :
    Option.Rel Totals.Alike (residualOf ((t.standIns s.1 s.2).map (·.1))).value?
      (residualOf ((t'.standIns s'.1 s'.2).map (·.1))).value? := by
  have hperm : ((t.standIns s.1 s.2).map (·.1)).Perm (t'.postings.flatMap t.inPlaceOf) := by
    rw [map_standIns_of_solve hs]
    exact h.postings.symm.flatMap_right _
  refine residualOf_alike (ht.completed s hs) (ht'.completed s' hs') hperm ?_
  rw [map_standIns_of_solve hs']
  refine List.rel_flatMap (List.forall₂_same.2 fun p _ => rfl) fun p _ hp => ?_
  subst hp
  exact (h.inPlaceOf_alike hs hs' halike p).imp fun _ _ => Posting.FilledAlike.weighsAlike

end Solved

/-- Interpolation of a transaction with its postings in another order fails if it does in the
first, and otherwise puts in the place of each posting what is alike. -/
theorem interpolate_alike (h : t'.Reorders t) (ht : t.AddsExactly) (ht' : t'.AddsExactly) :
    Checked.SameOutcome (fun r r' => t.Replaces r ∧ t'.Replaces r' ∧
        ∀ p, List.Forall₂ Posting.FilledAlike (t.inPlaceOf p) (t'.inPlaceOf p))
      t.interpolate.run.value? t'.interpolate.run.value? := by
  unfold interpolate
  refine h.settled_alike.bind ?_
  rintro _ _ - - ⟨rfl, rfl⟩
  have hwritten := residualOf_alike ht.written ht'.written h.settled_perm.symm
    (List.forall₂_same.2 fun p _ => .refl p)
  refine (Checked.SameOutcome.lift hwritten).bind fun written written' hw hw' halike => ?_
  simp only [missingNumbers_settled]
  by_cases hnodup : (t.postings.filterMap Posting.missingNumber?).Nodup
  · rw [repeatedCurrency?_missingNumbers.2 hnodup,
      repeatedCurrency?_missingNumbers.2 (h.nodup_iff.2 hnodup), h.missingNumbers_eq hnodup,
      h.openCount_eq]
    simp only
    split
    · exact .throw_bind _ _
    refine (Checked.SameOutcome.foldlM (R := SolvedAlike)
      (fun m _ _ _ hs => solveNumber_alike hs m) ⟨halike, .nil⟩).bind fun s s' hs hs' hsolved => ?_
    have hsolve : t.solve.run.value? = some (.ok s) := Checked.bind_eq_ok.2 ⟨written, hw, hs⟩
    have hsolve' : t'.solve.run.value? = some (.ok s') :=
      Checked.bind_eq_ok.2 ⟨written', hw', h.missingNumbers_eq hnodup ▸ hs'⟩
    have hresidual := h.residual_alike hsolve hsolve' hsolved ht ht'
    refine (Checked.SameOutcome.lift hresidual).bind fun _ _ _ _ _ => .pure ⟨?_, ?_, ?_⟩
    · exact congrArg _ (map_standIns_of_solve hsolve)
    · exact congrArg _ (map_standIns_of_solve hsolve')
    · exact h.inPlaceOf_alike hsolve hsolve' hsolved
  · have hrepeats {t : Transaction} (h : ¬(t.postings.filterMap Posting.missingNumber?).Nodup) :=
      Option.ne_none_iff_exists'.1 (mt repeatedCurrency?_missingNumbers.1 h)
    obtain ⟨⟨c, count⟩, hsome⟩ := hrepeats hnodup
    obtain ⟨⟨c', count'⟩, hsome'⟩ := hrepeats (mt h.nodup_iff.1 hnodup)
    rw [hsome, hsome']
    exact .throw_bind _ _

end Transaction

end DoubleEntry
