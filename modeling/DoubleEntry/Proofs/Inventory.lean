import DoubleEntry.Inventory
import DoubleEntry.Proofs.Decimal.Value

/-!
# What an inventory holds

Adding an amount is one decimal addition, to the units of its currency (`add_eq_put`). For that the
positions must be in distinct currencies (`Distinct`), as they are from the empty inventory on.

* `units_put_eq`: what an addition makes of the units of each currency.
* `units_add`: an exact addition changes the units of its currency by its number, and no others.
* `HasNoZeros.units_eq_zero`: no position is ever zero.
-/

namespace DoubleEntry

/-- The number of an amount, counted in one currency. -/
def Amount.inCurrency (a : Amount) (c : Currency) : ℚ :=
  if a.currency = c then a.number.value else 0

theorem Amount.inCurrency_neg (a : Amount) (c : Currency) :
    a.neg.inCurrency c = -a.inCurrency c := by
  unfold inCurrency neg
  rw [Decimal.value_neg]
  split
  · rfl
  · rw [neg_zero]

namespace Decimal

/-- The number as an inventory keeps it: of a zero it keeps neither places nor sign. -/
def tidied (a : Decimal) : Decimal := if a.isZero then zero else a

/-- A zero loses its places. -/
theorem tidied_of_isZero {a : Decimal} (h : a.isZero) : a.tidied = zero := if_pos h

/-- Any other number keeps them. -/
theorem tidied_of_not_isZero {a : Decimal} (h : ¬a.isZero) : a.tidied = a := if_neg h

@[simp] theorem isZero_tidied (a : Decimal) : a.tidied.isZero = a.isZero := by
  unfold tidied
  split
  · next h => rw [h]; rfl
  · rfl

@[simp] theorem value_tidied (a : Decimal) : a.tidied.value = a.value := by
  unfold tidied
  split
  · next h => rw [value_zero, isZero_iff.1 h]
  · rfl

/-- A sum that has come to zero goes on like one that starts. -/
@[simp] theorem tidied_add (a b : Decimal) : a.tidied.add b = a.add b := by
  unfold tidied
  split
  · next h => rw [add, add, if_pos h, if_pos (by rfl)]
  · rfl

end Decimal

namespace Inventory

/-- No two positions are in one currency. -/
def Distinct (inv : Inventory) : Prop := (inv.positions.map (·.currency)).Nodup

theorem distinct_empty : Distinct {} := List.nodup_nil

/-- The positions with a number in the place of the one of its currency: a number that was not there
comes last, and zero drops the position. -/
def put (c : Currency) (n : Decimal) : List Amount → List Amount
  | [] => if n.isZero then [] else [⟨n, c⟩]
  | p :: rest =>
    if p.currency = c then if n.isZero then rest else { p with number := n } :: rest
    else p :: put c n rest

theorem units_cons (p : Amount) (l : List Amount) (c : Currency) :
    units ⟨p :: l⟩ c = if p.currency = c then p.number else units ⟨l⟩ c := by
  by_cases h : p.currency = c <;> simp [units, h]

/-- Of a currency that is not held there are no units. -/
theorem units_eq_zero {l : List Amount} {c : Currency} (h : c ∉ l.map (·.currency)) :
    units ⟨l⟩ c = .zero := by
  induction l with
  | nil => rfl
  | cons p l ih =>
    simp only [List.map_cons, List.mem_cons, not_or] at h
    rw [units_cons, if_neg (Ne.symm h.1), ih h.2]

/-- What is added to a list of positions is put in place of the position of its currency. -/
theorem addTo_eq_put (a : Amount) (l : List Amount) :
    addTo a l = do return put a.currency (← (units ⟨l⟩ a.currency).add a.number) l := by
  induction l with
  | nil => rfl
  | cons p l ih =>
    rw [units_cons]
    by_cases h : p.currency = a.currency
    · simp [addTo, put, h]
    · simp [addTo, put, h, ih]

/-- Adding an amount is one decimal addition. -/
theorem add_eq_put (inv : Inventory) (a : Amount) :
    inv.add a = do
      return ⟨put a.currency (← (inv.units a.currency).add a.number) inv.positions⟩ := by
  simp [add, addTo_eq_put]

/-- No other currency comes in. -/
theorem mem_currencies_of_put {c c' : Currency} {n : Decimal} {l : List Amount}
    (h : c' ∈ (put c n l).map (·.currency)) : c' = c ∨ c' ∈ l.map (·.currency) := by
  induction l with
  | nil =>
    unfold put at h
    split at h <;> simp_all
  | cons p l ih =>
    unfold put at h
    split at h
    · split at h <;> simp_all
    · simp only [List.map_cons, List.mem_cons] at h ⊢
      rcases h with rfl | h
      · simp
      · rcases ih h with rfl | h <;> simp_all

/-- Putting units keeps one position for each currency. -/
theorem distinct_put {c : Currency} {n : Decimal} {l : List Amount} (hd : Distinct ⟨l⟩) :
    Distinct ⟨put c n l⟩ := by
  unfold Distinct at *
  induction l with
  | nil =>
    unfold put
    split <;> simp
  | cons p l ih =>
    obtain ⟨hp, hl⟩ := List.nodup_cons.1 hd
    unfold put
    split
    · split
      · exact hl
      · exact hd
    · rename_i hc
      refine List.nodup_cons.2 ⟨fun h => ?_, ih hl⟩
      rcases mem_currencies_of_put h with h | h
      · exact hc h
      · exact hp h

theorem units_put_eq {c : Currency} {n : Decimal} {l : List Amount} (hd : Distinct ⟨l⟩)
    (c' : Currency) :
    units ⟨put c n l⟩ c' = if c = c' then n.tidied else units ⟨l⟩ c' := by
  unfold Distinct at hd
  induction l with
  | nil =>
    unfold put
    split
    · next hn =>
      rw [Decimal.tidied_of_isZero hn]
      exact (ite_self Decimal.zero).symm
    · next hn => rw [Decimal.tidied_of_not_isZero hn, units_cons]
  | cons p l ih =>
    obtain ⟨hp, hl⟩ := List.nodup_cons.1 hd
    unfold put
    split
    · next hc =>
      subst hc
      rw [units_cons]
      split
      · -- The position is dropped, and no other one has its currency.
        next hn =>
        split
        · next hc => rw [← hc, units_eq_zero hp, Decimal.tidied_of_isZero hn]
        · rfl
      · next hn =>
        rw [units_cons, Decimal.tidied_of_not_isZero hn]
        split <;> rfl
    · next hc =>
      rw [units_cons, units_cons]
      by_cases h : p.currency = c'
      · rw [if_pos h, if_pos h, if_neg fun h' => hc (h.trans h'.symm)]
      · rw [if_neg h, if_neg h, ih hl]

/-- Only the units of the currency that is put change. -/
theorem units_put {c : Currency} {n : Decimal} {l : List Amount} (hd : Distinct ⟨l⟩)
    (c' : Currency) :
    (units ⟨put c n l⟩ c').value = if c = c' then n.value else (units ⟨l⟩ c').value := by
  rw [units_put_eq hd]
  split
  · rw [Decimal.value_tidied]
  · rfl

/-- Adding keeps one position for each currency. -/
theorem distinct_add {strict : Bool} {inv inv' : Inventory} {a : Amount} (hd : inv.Distinct)
    (h : (inv.add a).Gives strict inv') : inv'.Distinct := by
  rw [add_eq_put, Checked.bind_gives] at h
  obtain ⟨n, -, h⟩ := h
  obtain rfl := Checked.exact_gives.1 h
  exact distinct_put hd

/-- Adding an amount adds to the units of its currency and changes no others. -/
theorem units_add {inv inv' : Inventory} {a : Amount} (hd : inv.Distinct)
    (h : inv.add a = .exact inv') (c : Currency) :
    (inv'.units c).value = (inv.units c).value + a.inCurrency c := by
  rw [add_eq_put, Checked.bind_eq_exact] at h
  obtain ⟨n, hn, h⟩ := h
  obtain rfl := Checked.exact.inj h
  rw [units_put hd, Amount.inCurrency]
  split
  · rename_i hc
    rw [← hc, Decimal.value_add hn]
  · rw [add_zero]

/-! ## Zeros -/

/-- No position is zero. -/
def HasNoZeros (inv : Inventory) : Prop := ∀ p ∈ inv.positions, ¬p.number.isZero

theorem hasNoZeros_empty : HasNoZeros {} := by
  intro p hp
  cases hp

/-- A position that becomes zero is dropped. -/
theorem hasNoZeros_put {c : Currency} {n : Decimal} {l : List Amount} (hl : HasNoZeros ⟨l⟩) :
    HasNoZeros ⟨put c n l⟩ := by
  unfold HasNoZeros at *
  induction l with
  | nil =>
    unfold put
    split
    · exact hl
    · rename_i hn
      simpa using hn
  | cons p l ih =>
    obtain ⟨hp, hl'⟩ := List.forall_mem_cons.1 hl
    unfold put
    split
    · split
      · exact hl'
      · rename_i hn
        exact List.forall_mem_cons.2 ⟨hn, hl'⟩
    · exact List.forall_mem_cons.2 ⟨hp, ih hl'⟩

/-- Adding leaves no zeros behind. -/
theorem hasNoZeros_add {strict : Bool} {inv inv' : Inventory} {a : Amount}
    (hinv : inv.HasNoZeros) (h : (inv.add a).Gives strict inv') : inv'.HasNoZeros := by
  rw [add_eq_put, Checked.bind_gives] at h
  obtain ⟨n, -, h⟩ := h
  obtain rfl := Checked.exact_gives.1 h
  exact hasNoZeros_put hinv

/-- Zero units are units of a currency in which there is no position. -/
theorem HasNoZeros.units_eq_zero {inv : Inventory} (hinv : inv.HasNoZeros) {c : Currency}
    (h : (inv.units c).isZero) : inv.units c = .zero := by
  unfold units at h ⊢
  split
  · rename_i p hp
    rw [hp] at h
    exact absurd h (hinv p (List.mem_of_find?_eq_some hp))
  · rfl

end Inventory

end DoubleEntry
