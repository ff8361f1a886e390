import DoubleEntry.Proofs.Ends
import DoubleEntry.Proofs.Inventory
import DoubleEntry.Proofs.Sample

/-!
# The history of an inventory

An inventory drops a currency whenever it comes to zero, and still its units are the plain sum of
all that was ever put in, also where additions round: a sum that has come to zero goes on like one
that starts. The order of the positions tells when their currencies last rose from zero.

* `sumIn?`: the plain sum of the amounts in one currency.
* `LastRise`: the addition by which a currency last went from zero to something else;
  `RiseInOrder` compares those of several currencies.
* `Inventory.SumsUp`: what an inventory tells of the amounts put into it, with `SumsUp.add` for one
  more amount.
* `Inventory.History`: the additions and mergers that lead to an inventory; `sumsUp_of_history` is
  the run.
-/

namespace DoubleEntry

variable {c : Currency} {log more : List Amount} {a : Amount} {k : Nat}

/-! ## Plain sums -/

/-- The numbers of the amounts in a currency, in their order. -/
def numbersIn (c : Currency) (log : List Amount) : List Decimal :=
  (log.filter (·.currency = c)).map (·.number)

/-- The sum of the amounts in a currency, from the left, if it fits. -/
def sumIn? (c : Currency) (log : List Amount) : Option Decimal :=
  (Decimal.sum (numbersIn c log)).value?

theorem numbersIn_append (c : Currency) (log more : List Amount) :
    numbersIn c (log ++ more) = numbersIn c log ++ numbersIn c more := by
  simp [numbersIn]

theorem sumIn?_append (c : Currency) (log more : List Amount) :
    sumIn? c (log ++ more) =
      (sumIn? c log).bind fun t => ((numbersIn c more).foldlM Decimal.add t).value? := by
  unfold sumIn? Decimal.sum
  rw [numbersIn_append, List.foldlM_append, Checked.value?_bind]

theorem sumIn?_concat_self (log : List Amount) (a : Amount) :
    sumIn? a.currency (log ++ [a]) =
      (sumIn? a.currency log).bind fun t => (t.add a.number).value? := by
  rw [sumIn?_append]
  simp [numbersIn]

theorem sumIn?_concat_of_ne (log : List Amount) (h : a.currency ≠ c) :
    sumIn? c (log ++ [a]) = sumIn? c log := by
  rw [sumIn?_append]
  simp [numbersIn, h]

/-! ## Rises -/

/-- Whether some amounts come to something other than zero in a currency. -/
def IsHeld (c : Currency) (log : List Amount) : Prop := ∃ t, sumIn? c log = some t ∧ ¬t.isZero

/-- The addition after the first `k` brings a currency from zero to something else. -/
def Rises (log : List Amount) (c : Currency) (k : Nat) : Prop :=
  ¬IsHeld c (log.take k) ∧ IsHeld c (log.take (k + 1))

/-- The addition after the first `k` is the last one that does so. -/
def LastRise (log : List Amount) (c : Currency) (k : Nat) : Prop :=
  Rises log c k ∧ ∀ j, Rises log c j → j ≤ k

theorem Rises.lt_length (h : Rises log c k) : k < log.length := by
  by_contra hk
  rw [Nat.not_lt] at hk
  rw [Rises, List.take_of_length_le hk, List.take_of_length_le (Nat.le_succ_of_le hk)] at h
  exact h.1 h.2

theorem rises_concat_of_lt (a : Amount) (h : k < log.length) :
    Rises (log ++ [a]) c k ↔ Rises log c k := by
  rw [Rises, Rises, List.take_append_of_le_length h.le, List.take_append_of_le_length h]

theorem rises_concat_length :
    Rises (log ++ [a]) c log.length ↔ ¬IsHeld c log ∧ IsHeld c (log ++ [a]) := by
  rw [Rises, List.take_left, List.take_of_length_le (by simp)]

/-- What rises by one more addition rises last. -/
theorem lastRise_concat_of_rises (h : Rises (log ++ [a]) c log.length) :
    LastRise (log ++ [a]) c k ↔ k = log.length := by
  have hle {j : Nat} (hj : Rises (log ++ [a]) c j) : j ≤ log.length := by
    simpa [Nat.lt_succ_iff] using hj.lt_length
  constructor
  · rintro ⟨hk, hlast⟩
    exact Nat.le_antisymm (hle hk) (hlast _ h)
  · rintro rfl
    exact ⟨h, fun _ => hle⟩

/-- What was held before one more addition has last risen when it had. -/
theorem lastRise_concat_of_isHeld (h : IsHeld c log) :
    LastRise (log ++ [a]) c k ↔ LastRise log c k := by
  have hiff (j : Nat) : Rises (log ++ [a]) c j ↔ Rises log c j := by
    by_cases hj : j < log.length
    · exact rises_concat_of_lt a hj
    · refine iff_of_false (fun hrises => ?_) fun hrises => hj hrises.lt_length
      have hlt := hrises.lt_length
      rw [List.length_append, List.length_singleton] at hlt
      obtain rfl : j = log.length := by omega
      exact (rises_concat_length.1 hrises).1 h
  simp only [LastRise, hiff]

/-- All the currencies have risen, and each stands before those that rose later. -/
structure RiseInOrder (cs : List Currency) (log : List Amount) : Prop where
  risen : ∀ c ∈ cs, ∃ k, LastRise log c k
  ordered : cs.Pairwise fun c d => ∀ i j, LastRise log c i → LastRise log d j → i < j

namespace RiseInOrder

variable {cs cs' : List Currency}

theorem nil (log : List Amount) : RiseInOrder [] log := ⟨by simp, .nil⟩

theorem sublist (h : RiseInOrder cs log) (hsub : cs'.Sublist cs) : RiseInOrder cs' log where
  risen c hc := h.risen c (hsub.subset hc)
  ordered := h.ordered.sublist hsub

/-- What is held does not rise by one more addition. -/
theorem concat (h : RiseInOrder cs log) (hheld : ∀ c ∈ cs, IsHeld c log) (a : Amount) :
    RiseInOrder cs (log ++ [a]) where
  risen c hc := by
    obtain ⟨k, hk⟩ := h.risen c hc
    exact ⟨k, (lastRise_concat_of_isHeld (hheld c hc)).2 hk⟩
  ordered := by
    refine h.ordered.imp_of_mem fun {c d} hc hd hcd i j hi hj => ?_
    rw [lastRise_concat_of_isHeld (hheld c hc)] at hi
    rw [lastRise_concat_of_isHeld (hheld d hd)] at hj
    exact hcd i j hi hj

/-- What rises by one more addition comes last. -/
theorem concat_rises (h : RiseInOrder cs log) (hheld : ∀ c ∈ cs, IsHeld c log)
    (hc : Rises (log ++ [a]) c log.length) : RiseInOrder (cs ++ [c]) (log ++ [a]) where
  risen d hd := by
    obtain hd | rfl := by simpa using hd
    · exact (h.concat hheld a).risen d hd
    · exact ⟨log.length, (lastRise_concat_of_rises hc).2 rfl⟩
  ordered := by
    refine List.pairwise_append.2 ⟨(h.concat hheld a).ordered, by simp, fun d hd c' hc' => ?_⟩
    obtain rfl := List.mem_singleton.1 hc'
    intro i j hi hj
    rw [lastRise_concat_of_isHeld (hheld d hd)] at hi
    rw [(lastRise_concat_of_rises hc).1 hj]
    exact hi.1.lt_length

end RiseInOrder

/-! ## One more amount -/

namespace Inventory

variable {inv inv' other merged : Inventory}

/-- The currencies in which there is a position. -/
def currencies (inv : Inventory) : List Currency := inv.positions.map (·.currency)

theorem currencies_put (c : Currency) (n : Decimal) (l : List Amount) :
    currencies ⟨put c n l⟩ =
      if c ∈ currencies ⟨l⟩ then
        if n.isZero then (currencies ⟨l⟩).erase c else currencies ⟨l⟩
      else if n.isZero then currencies ⟨l⟩ else currencies ⟨l⟩ ++ [c] := by
  unfold currencies
  induction l with
  | nil => cases hn : n.isZero <;> simp [put, hn]
  | cons p l ih =>
    by_cases hp : p.currency = c
    · cases hn : n.isZero <;> simp [put, hp, hn]
    · simp only [put, hp, if_false, List.map_cons, ih]
      have hne : c ≠ p.currency := Ne.symm hp
      by_cases hc : c ∈ l.map (·.currency) <;> cases hn : n.isZero <;>
        simp [hc, hne, hp, List.erase_cons_tail]

/-- What an inventory tells of the amounts put into it, one after the other. -/
structure SumsUp (inv : Inventory) (log : List Amount) : Prop where
  distinct : inv.Distinct
  hasNoZeros : inv.HasNoZeros
  /-- The units are the plain sum, apart from the places and the sign of a zero. -/
  units : ∀ c, ∃ t, sumIn? c log = some t ∧ inv.units c = t.tidied
  ordered : RiseInOrder inv.currencies log

theorem mem_currencies_iff (hd : inv.Distinct) (hz : inv.HasNoZeros) :
    c ∈ inv.currencies ↔ ¬(inv.units c).isZero := by
  obtain ⟨l⟩ := inv
  unfold Distinct at hd
  unfold HasNoZeros at hz
  unfold currencies
  induction l with
  | nil => simp [Inventory.units, Decimal.isZero, Decimal.zero]
  | cons p l ih =>
    obtain ⟨hp, hl⟩ := List.nodup_cons.1 hd
    obtain ⟨hpz, hlz⟩ := List.forall_mem_cons.1 hz
    rw [units_cons]
    split
    · next hc => simpa [hc] using hpz
    · next hc =>
      rw [← ih hl hlz, List.map_cons, List.mem_cons, or_iff_right fun h => hc h.symm]

namespace SumsUp

theorem mem_currencies_iff (h : inv.SumsUp log) : c ∈ inv.currencies ↔ IsHeld c log := by
  obtain ⟨t, ht, hunits⟩ := h.units c
  rw [Inventory.mem_currencies_iff h.distinct h.hasNoZeros, hunits, Decimal.isZero_tidied]
  simp [IsHeld, ht]

theorem empty : SumsUp {} [] where
  distinct := distinct_empty
  hasNoZeros := hasNoZeros_empty
  units _ := ⟨.zero, rfl, rfl⟩
  ordered := .nil []

/-- The units after one more amount. -/
theorem units_put (h : inv.SumsUp log) {n : Decimal}
    (hn : ((inv.units a.currency).add a.number).value? = some n) (c : Currency) :
    ∃ t, sumIn? c (log ++ [a]) = some t ∧
      Inventory.units ⟨put a.currency n inv.positions⟩ c = t.tidied := by
  rw [units_put_eq h.distinct]
  split
  · next hc =>
    subst hc
    obtain ⟨t, ht, hunits⟩ := h.units a.currency
    rw [hunits, Decimal.tidied_add] at hn
    exact ⟨n, by rw [sumIn?_concat_self, ht, Option.bind_some, hn], rfl⟩
  · next hc =>
    rw [sumIn?_concat_of_ne log hc]
    exact h.units c

theorem rises_iff (h : inv.SumsUp log) {n : Decimal}
    (hn : ((inv.units a.currency).add a.number).value? = some n) :
    Rises (log ++ [a]) a.currency log.length ↔ a.currency ∉ inv.currencies ∧ ¬n.isZero := by
  obtain ⟨t, ht, hunits⟩ := h.units_put hn a.currency
  have hheld : IsHeld a.currency (log ++ [a]) ↔ ¬n.isZero := by
    rw [units_put_eq h.distinct, if_pos rfl] at hunits
    rw [← Decimal.isZero_tidied, hunits, Decimal.isZero_tidied]
    simp [IsHeld, ht]
  rw [rises_concat_length, ← h.mem_currencies_iff, hheld]

/-- One more amount is put in: a currency that was held keeps its place, and one that rises comes
last. -/
theorem add (h : inv.SumsUp log) (ha : (inv.add a).value? = some inv') :
    inv'.SumsUp (log ++ [a]) := by
  rw [add_eq_put, Checked.value?_bind, Option.bind_eq_some_iff] at ha
  obtain ⟨n, hn, ha⟩ := ha
  obtain rfl := Option.some.inj ha
  have hheld : ∀ c ∈ inv.currencies, IsHeld c log := fun c => h.mem_currencies_iff.1
  have hkept : RiseInOrder inv.currencies (log ++ [a]) := h.ordered.concat hheld a
  refine ⟨distinct_put h.distinct, hasNoZeros_put h.hasNoZeros, h.units_put hn, ?_⟩
  rw [currencies_put]
  split
  · split
    · exact hkept.sublist List.erase_sublist
    · exact hkept
  · next hnew =>
    split
    · exact hkept
    · next hnz => exact h.ordered.concat_rises hheld ((h.rises_iff hn).2 ⟨hnew, hnz⟩)

/-- Several amounts are put in. -/
theorem addAll (h : inv.SumsUp log) (ha : (more.foldlM Inventory.add inv).value? = some inv') :
    inv'.SumsUp (log ++ more) := by
  refine Checked.foldlM_invariant (fun seen (now : Inventory) => now.SumsUp (log ++ seen))
    (by simpa using h) ?_ (Checked.gives_false.2 ha)
  intro seen now a next hnow hnext
  rw [← List.append_assoc]
  exact hnow.add (Checked.gives_false.1 hnext)

/-- Several amounts can be put in if the plain sums fit. -/
theorem exists_addAll_iff (h : inv.SumsUp log) :
    (∃ inv', (more.foldlM Inventory.add inv).value? = some inv') ↔
      ∀ c, ∃ t, sumIn? c (log ++ more) = some t := by
  constructor
  · rintro ⟨inv', ha⟩ c
    obtain ⟨t, ht, -⟩ := (h.addAll ha).units c
    exact ⟨t, ht⟩
  · intro hsums
    induction more generalizing inv log with
    | nil => exact ⟨inv, rfl⟩
    | cons a more ih =>
      simp only [List.append_cons log a more] at hsums
      obtain ⟨s, hs, hunits⟩ := h.units a.currency
      obtain ⟨t, ht⟩ := hsums a.currency
      rw [sumIn?_append, sumIn?_concat_self, hs, Option.bind_some] at ht
      obtain ⟨n, hn, -⟩ := Option.bind_eq_some_iff.1 ht
      have ha : (inv.add a).value? = some ⟨put a.currency n inv.positions⟩ := by
        rw [add_eq_put, Checked.value?_bind, hunits, Decimal.tidied_add, hn]
        rfl
      obtain ⟨inv', hmore⟩ := ih (h.add ha) hsums
      exact ⟨inv', by rw [List.foldlM_cons, Checked.value?_bind, ha, Option.bind_some, hmore]⟩

end SumsUp

/-! ## Mergers -/

theorem addMany_eq_iff {l : List Amount} :
    inv.addMany l = (inv', none) ↔ (l.foldlM add inv).value? = some inv' := by
  induction l generalizing inv with
  | nil => simp [addMany]
  | cons a l ih =>
    rw [addMany, List.foldlM_cons, Checked.value?_bind]
    cases inv.add a with
    | error e => simp
    | _ next => exact ih

/-- In a currency there is the one position, or none. -/
theorem numbersIn_positions (hd : inv.Distinct) (c : Currency) :
    numbersIn c inv.positions = if c ∈ inv.currencies then [inv.units c] else [] := by
  obtain ⟨l⟩ := inv
  unfold Distinct at hd
  unfold currencies
  induction l with
  | nil => rfl
  | cons p l ih =>
    obtain ⟨hp, hl⟩ := List.nodup_cons.1 hd
    have ih := ih hl
    unfold numbersIn at ih ⊢
    rw [units_cons]
    by_cases hc : p.currency = c
    · subst hc
      rw [if_neg hp] at ih
      simp [ih]
    · have hne : c ≠ p.currency := Ne.symm hc
      simp only [List.map_cons, List.mem_cons, hne, false_or]
      rw [List.filter_cons_of_neg (by simpa using hc), ih, if_neg hc]

/-- A merger adds the units of the two inventories in each currency. -/
theorem SumsUp.units_merge (h : inv.SumsUp log) (hd : other.Distinct)
    (hmerge : inv.merge other = (merged, none)) (c : Currency) :
    ∃ t, ((inv.units c).add (other.units c)).value? = some t ∧ (merged.units c).Equals t := by
  obtain ⟨t, ht, hmerged⟩ := (h.addAll (addMany_eq_iff.1 hmerge)).units c
  obtain ⟨s, hs, hunits⟩ := h.units c
  rw [sumIn?_append, hs, Option.bind_some, numbersIn_positions hd] at ht
  rw [hunits, Decimal.tidied_add, hmerged]
  split at ht
  · exact ⟨t, by simpa using ht, Decimal.equals_iff.2 (Decimal.value_tidied t)⟩
  · next hnone =>
    obtain rfl : s = t := by simpa using ht
    have hzero : other.units c = .zero := units_eq_zero hnone
    rw [hzero, Decimal.add]
    split
    · next hsz =>
      refine ⟨.zero, rfl, ?_⟩
      rw [Decimal.tidied_of_isZero hsz]
      rfl
    · exact ⟨s, rfl, Decimal.equals_iff.2 (Decimal.value_tidied s)⟩

/-- An inventory that additions and mergers have led to from the empty one, with the amounts that
they have put in. A merger puts in the positions of an inventory with a history of its own. -/
inductive History : List Amount → Inventory → Prop
  | empty : History [] {}
  | add {log : List Amount} {inv inv' : Inventory} {a : Amount} (h : History log inv)
      (ha : (inv.add a).value? = some inv') : History (log ++ [a]) inv'
  | merge {log log' : List Amount} {inv other merged : Inventory} (h : History log inv)
      (h' : History log' other) (hmerge : inv.merge other = (merged, none)) :
      History (log ++ other.positions) merged

theorem History.addAll (h : History log inv)
    (ha : (more.foldlM Inventory.add inv).value? = some inv') : History (log ++ more) inv' := by
  refine Checked.foldlM_invariant (fun seen (now : Inventory) => History (log ++ seen) now)
    (by simpa using h) ?_ (Checked.gives_false.2 ha)
  intro seen now a next hnow hnext
  rw [← List.append_assoc]
  exact hnow.add (Checked.gives_false.1 hnext)

theorem sumsUp_of_history (h : History log inv) : inv.SumsUp log := by
  induction h with
  | empty => exact .empty
  | add _ ha ih => exact ih.add ha
  | merge _ _ hmerge ih _ => exact ih.addAll (addMany_eq_iff.1 hmerge)

/-- **An inventory is the sum of its history.** Its positions are in distinct currencies and none is
zero, its units are the plain sums of what was put in, and the positions stand in the order in which
their currencies last rose from zero. Merging it with another one adds the units of both. -/
theorem sums_of_history (h : History log inv) :
    inv.SumsUp log ∧ ∀ log' other merged, History log' other →
      inv.merge other = (merged, none) → ∀ c, ∃ t,
        ((inv.units c).add (other.units c)).value? = some t ∧ (merged.units c).Equals t :=
  ⟨sumsUp_of_history h, fun _ _ _ hother hmerge c =>
    (sumsUp_of_history h).units_merge (sumsUp_of_history hother).distinct hmerge c⟩

/-- Dollars that come to zero only because an addition rounds. -/
def roundedAway : List Amount :=
  [⟨.written "0.3333333333333333333333333333", "USD"⟩, ⟨.ofNat 7, "EUR"⟩, ⟨.ofNat 8, "USD"⟩,
    ⟨.written "-8.333333333333333333333333333", "USD"⟩]

/-- Dollars are held again after a merger, and stand last. -/
theorem sums_of_history_roundedAway :
    ∃ spent other merged, History roundedAway spent ∧
      History [⟨.ofNat 3, "CHF"⟩, ⟨.ofNat 2, "USD"⟩] other ∧ spent.merge other = (merged, none) ∧
      merged.currencies = ["EUR", "CHF", "USD"] ∧ spent.SumsUp roundedAway ∧ ∀ c, ∃ t,
        ((spent.units c).add (other.units c)).value? = some t ∧ (merged.units c).Equals t := by
  let spent : Inventory := ⟨[⟨.ofNat 7, "EUR"⟩]⟩
  let other : Inventory := ⟨[⟨.ofNat 3, "CHF"⟩, ⟨.ofNat 2, "USD"⟩]⟩
  let merged : Inventory := ⟨[⟨.ofNat 7, "EUR"⟩, ⟨.ofNat 3, "CHF"⟩, ⟨.ofNat 2, "USD"⟩]⟩
  have hspent : History roundedAway spent := History.empty.addAll (by decide +kernel)
  have hother : History [⟨.ofNat 3, "CHF"⟩, ⟨.ofNat 2, "USD"⟩] other :=
    History.empty.addAll (by decide +kernel)
  have hmerge : spent.merge other = (merged, none) := by decide +kernel
  obtain ⟨hsums, hunits⟩ := sums_of_history hspent
  exact ⟨spent, other, merged, hspent, hother, hmerge, rfl, hsums,
    hunits _ other merged hother hmerge⟩

end Inventory

end DoubleEntry
