import DoubleEntry.Date
import DoubleEntry.Proofs.Decimal.Value

/-!
# Numbers and dates that are read back

What is written as text is read back: a date as it is, and a decimal with its digits and its scale.
Only the sign of a zero is lost.

* `Date.ofText?_text`: dates.
* `Decimal.ofChars?_toChars`: decimals. `Decimal.of_mem_toChars`: the characters of their texts.
* `NumeralParts`: the digits of a number in groups. `NumeralParts.filter_commas`: in one group.
-/

namespace DoubleEntry

/-! ## Digits -/

theorem digit?_digitChar {d : Nat} (h : d < 10) : digit? (Nat.digitChar d) = some d := by
  have hall : ∀ d < 10, digit? (Nat.digitChar d) = some d := by decide
  exact hall d h

theorem digit?_eq_none_iff {c : Char} : digit? c = none ↔ ¬c.isDigit := by
  have hdigit : c.isDigit ↔ '0' ≤ c ∧ c ≤ '9' := by
    simp [Char.isDigit, Char.le_def, UInt32.le_iff_toNat_le]
  rw [digit?, hdigit]
  split
  · next h => simp [h]
  · next h => simp [h]

/-- The last digits of a number, after those of another one. -/
theorem foldlM_fixedDigits (k n m : Nat) :
    (fixedDigits k n).foldlM (fun n c => (digit? c).map (n * 10 + ·)) m =
      some (m * 10 ^ k + n % 10 ^ k) := by
  induction k generalizing n with
  | zero => simp [fixedDigits, Nat.mod_one]
  | succ k ih =>
    have hdigit := digit?_digitChar (Nat.mod_lt n (show 0 < 10 by decide))
    have hsplit : n % 10 ^ (k + 1) = n % 10 + 10 * (n / 10 % 10 ^ k) := by
      rw [Nat.pow_succ', Nat.mod_mul]
    rw [fixedDigits, List.foldlM_append, ih]
    simp only [Option.bind_eq_bind, Option.bind_some, List.foldlM_cons, List.foldlM_nil, hdigit,
      Option.map_some, Option.pure_def]
    rw [hsplit, Nat.pow_succ]
    congr 1
    ring

theorem length_fixedDigits (k n : Nat) : (fixedDigits k n).length = k := by
  induction k generalizing n with
  | zero => rfl
  | succ k ih => rw [fixedDigits, List.length_append, ih]; rfl

theorem isDigit_of_mem_fixedDigits {c : Char} {k n : Nat} (h : c ∈ fixedDigits k n) :
    c.isDigit := by
  induction k generalizing n with
  | zero => simp [fixedDigits] at h
  | succ k ih =>
    rcases List.mem_append.1 h with h | h
    · exact ih h
    · have hdigit : ∀ d < 10, (Nat.digitChar d).isDigit := by decide
      obtain rfl := List.mem_singleton.1 h
      exact hdigit _ (Nat.mod_lt n (by decide))

/-! ## Dates -/

namespace Date

theorem natOfDigits?_fixedDigits {k n : Nat} (hk : 0 < k) (hn : n < 10 ^ k) :
    natOfDigits? (fixedDigits k n) = some n := by
  have hne : fixedDigits k n ≠ [] := by
    intro h
    have := length_fixedDigits k n
    simp [h] at this
    omega
  have hfold := foldlM_fixedDigits k n 0
  rw [Nat.zero_mul, Nat.zero_add, Nat.mod_eq_of_lt hn] at hfold
  unfold natOfDigits?
  cases hcs : fixedDigits k n with
  | nil => exact absurd hcs hne
  | cons c cs =>
    rw [hcs] at hfold
    exact hfold

theorem daysInMonth_le (year month : Nat) : daysInMonth year month ≤ 31 := by
  unfold daysInMonth
  split <;> try split
  all_goals omega

theorem month_lt (d : Date) : d.month < 100 := by
  by_contra h
  have hday := Nat.le_trans d.day_pos d.day_le
  unfold daysInMonth at hday
  split at hday <;> omega

theorem day_lt (d : Date) : d.day < 100 := by
  have := Nat.le_trans d.day_le (daysInMonth_le d.year d.month)
  omega

/-- The parts of a date are told apart by the hyphens between them. -/
theorem splitOn_toChars (d : Date) :
    (d.toChars.map fun c => if c = '/' then '-' else c).splitOn '-' =
      [fixedDigits 4 d.year, fixedDigits 2 d.month, fixedDigits 2 d.day] := by
  have hdigits {k n : Nat} : ∀ c ∈ fixedDigits k n, c ≠ '/' ∧ c ≠ '-' := by
    intro c hc
    have hdigit := isDigit_of_mem_fixedDigits hc
    constructor <;> rintro rfl <;> cases hdigit
  have hmap (k n : Nat) :
      (fixedDigits k n).map (fun c => if c = '/' then '-' else c) = fixedDigits k n := by
    conv_rhs => rw [← List.map_id (fixedDigits k n)]
    exact List.map_congr_left fun c hc => if_neg (hdigits c hc).1
  have hnot (k n : Nat) : '-' ∉ fixedDigits k n := fun h => (hdigits _ h).2 rfl
  rw [toChars, List.append_assoc]
  simp only [List.map_append, List.map_cons, hmap, List.cons_append]
  rw [if_neg (by decide), List.splitOn_append_cons_self_of_not_mem (hnot _ _),
    List.splitOn_append_cons_self_of_not_mem (hnot _ _), List.splitOn_eq_singleton (hnot _ _)]

theorem ofText?_text (d : Date) : ofText? d.text = some d := by
  have hyear : natOfDigits? (fixedDigits 4 d.year) = some d.year :=
    natOfDigits?_fixedDigits (by decide) (Nat.lt_succ_of_le d.year_le)
  have hmonth := natOfDigits?_fixedDigits (k := 2) (by decide) d.month_lt
  have hday := natOfDigits?_fixedDigits (k := 2) (by decide) d.day_lt
  rw [ofText?, text, String.toList_ofList, ofChars?, splitOn_toChars]
  simp only [length_fixedDigits, hyear, hmonth, hday]
  simp [ofParts?, d.year_le, d.day_pos, d.day_le]

end Date

/-! ## Decimals -/

namespace Decimal

/-- Digits in front of the point are read one after the other. -/
theorem readWhole_toDigits {n : Nat} (h : n < limit) (rest : List Char) :
    readWhole 0 (Nat.toDigits 10 n ++ rest) = readWhole n rest := by
  induction n using Nat.strongRecOn generalizing rest with
  | _ n ih =>
    have hdigit := digit?_digitChar (Nat.mod_lt n (show 0 < 10 by decide))
    by_cases hsmall : n < 10
    · rw [Nat.mod_eq_of_lt hsmall] at hdigit
      rw [Nat.toDigits_of_lt_base hsmall, List.singleton_append, readWhole]
      simp [hdigit, h]
    · have hlt : n / 10 < n := Nat.div_lt_self (by omega) (by decide)
      have hsum : n / 10 * 10 + n % 10 = n := Nat.div_add_mod' n 10
      rw [Nat.toDigits_of_base_le (by decide) (by omega), List.append_assoc,
        ih (n / 10) hlt (Nat.lt_trans hlt h), List.singleton_append, readWhole]
      simp only [hdigit, hsum, if_pos h]

/-- Digits after the point are read onto the digits in front of them. -/
theorem readFraction_fixedDigits {k n s : Nat} (hn : n < limit) (hs : s + k ≤ maxScale)
    (rest : List Char) :
    readFraction (n / 10 ^ k) s (fixedDigits k n ++ rest) = readFraction n (s + k) rest := by
  induction k generalizing n rest with
  | zero => simp [fixedDigits]
  | succ k ih =>
    have hdigit := digit?_digitChar (Nat.mod_lt n (show 0 < 10 by decide))
    have hsum : n / 10 * 10 + n % 10 = n := Nat.div_add_mod' n 10
    have hdiv : n / 10 ^ (k + 1) = n / 10 / 10 ^ k := by
      rw [Nat.pow_succ', Nat.div_div_eq_div_mul]
    rw [hdiv, fixedDigits, List.append_assoc,
      ih (Nat.lt_of_le_of_lt (Nat.div_le_self n 10) hn) (by omega), List.singleton_append,
      readFraction]
    simp only [hdigit, hsum, if_pos (show s + k < maxScale ∧ n < limit from ⟨by omega, hn⟩)]
    rfl

/-- The first character of a number without its sign is a digit. -/
theorem toDigits_append_eq_cons (n : Nat) (rest : List Char) :
    ∃ c cs, Nat.toDigits 10 n ++ rest = c :: cs ∧ c.isDigit := by
  obtain ⟨c, cs, h⟩ := List.exists_cons_of_ne_nil (Nat.toDigits_ne_nil (n := n) (b := 10))
  refine ⟨c, cs ++ rest, by rw [h]; rfl, ?_⟩
  exact Nat.isDigit_of_mem_toDigits (by decide) (by decide) (h ▸ List.mem_cons_self)

/-- The digits of a number, with the point in front of its places. -/
def magnitude (a : Decimal) : List Char :=
  Nat.toDigits 10 (a.coefficient / tenPow a.scale) ++
    if a.scale = 0 then [] else '.' :: fixedDigits a.scale a.coefficient

theorem toChars_eq (a : Decimal) :
    a.toChars = (if a.negative then ['-'] else []) ++ a.magnitude := by
  rw [toChars, magnitude, List.append_assoc]

/-- The characters of a number without its sign: digits, and a point. -/
theorem of_mem_magnitude {a : Decimal} {c : Char} (h : c ∈ a.magnitude) : c.isDigit ∨ c = '.' := by
  rw [magnitude, List.mem_append] at h
  obtain h | h := h
  · exact .inl (Nat.isDigit_of_mem_toDigits (by decide) (by decide) h)
  · split at h
    · cases h
    · obtain rfl | h := List.mem_cons.1 h
      · exact .inr rfl
      · exact .inl (isDigit_of_mem_fixedDigits h)

theorem of_mem_toChars {a : Decimal} {c : Char} (h : c ∈ a.toChars) :
    c = '-' ∨ c.isDigit ∨ c = '.' := by
  rw [toChars_eq, List.mem_append] at h
  obtain h | h := h
  · split at h
    · exact .inl (List.mem_singleton.1 h)
    · cases h
  · exact .inr (of_mem_magnitude h)

/-- A number is written without commas. -/
theorem filter_toChars (a : Decimal) : a.toChars.filter (· ≠ ',') = a.toChars := by
  refine List.filter_eq_self.2 fun c hc => decide_eq_true ?_
  rintro rfl
  exact absurd (of_mem_toChars hc) (by decide)

theorem readMagnitude_magnitude (a : Decimal) :
    readMagnitude a.magnitude = some (a.coefficient, a.scale) := by
  have hwhole := readWhole_toDigits
    (Nat.lt_of_le_of_lt (Nat.div_le_self a.coefficient (tenPow a.scale)) a.coefficient_lt)
    (if a.scale = 0 then [] else '.' :: fixedDigits a.scale a.coefficient)
  obtain ⟨c, cs, hcons, hdigit⟩ := toDigits_append_eq_cons (a.coefficient / tenPow a.scale)
    (if a.scale = 0 then [] else '.' :: fixedDigits a.scale a.coefficient)
  have hmagnitude : a.magnitude = c :: cs := hcons
  have hsome : ¬(digit? c).isNone := by
    rw [Option.isNone_iff_eq_none, digit?_eq_none_iff]
    exact not_not_intro hdigit
  rw [hcons] at hwhole
  rw [hmagnitude, readMagnitude, if_neg hsome, hwhole]
  by_cases hscale : a.scale = 0
  · simp [hscale, readWhole, tenPow]
  · have hfraction := readFraction_fixedDigits (s := 0) a.coefficient_lt
      (Nat.le_trans (Nat.le_of_eq (Nat.zero_add _)) a.scale_le) []
    have hpoint : digit? '.' = none := by decide
    rw [List.append_nil, Nat.zero_add] at hfraction
    rw [if_neg hscale]
    simp only [readWhole, hpoint]
    exact hfraction

/-- What a decimal is read back as: all of it, but without the sign of a zero. -/
def readBack (a : Decimal) : Decimal := { a with negative := a.negative && a.coefficient != 0 }

@[simp] theorem readBack_readBack (a : Decimal) : a.readBack.readBack = a.readBack := by
  rw [readBack, readBack, Bool.and_assoc, Bool.and_self]

@[simp] theorem isZero_readBack (a : Decimal) : a.readBack.isZero = a.isZero := rfl

theorem readBack_of_not_isZero {a : Decimal} (h : a.isZero = false) : a.readBack = a := by
  rw [readBack, bne, ← isZero, h, Bool.not_false, Bool.and_true]

@[simp] theorem readBack_neg_readBack (a : Decimal) : a.readBack.neg.readBack = a.neg.readBack := by
  cases h : a.isZero with
  | true =>
    have hzero : a.coefficient = 0 := by simpa [isZero] using h
    simp [readBack, neg, hzero]
  | false => rw [readBack_of_not_isZero h]

/-- A decimal is read back with its digits and its scale, but without the sign of a zero. -/
theorem ofChars?_toChars (a : Decimal) : ofChars? a.toChars = some a.readBack := by
  have hread := a.readMagnitude_magnitude
  have hparts (negative : Bool) : ofParts? negative a.coefficient a.scale =
      some { a with negative } := dif_pos ⟨a.coefficient_lt, a.scale_le⟩
  rw [toChars_eq, readBack]
  cases hsign : a.negative with
  | true =>
    rw [if_pos rfl, List.singleton_append, ofChars?]
    simp only [hread, hparts]
  | false =>
    obtain ⟨c, cs, hcons, hdigit⟩ := toDigits_append_eq_cons (a.coefficient / tenPow a.scale)
      (if a.scale = 0 then [] else '.' :: fixedDigits a.scale a.coefficient)
    have hmagnitude : a.magnitude = c :: cs := hcons
    have hminus : c ≠ '-' := by
      rintro rfl
      cases hdigit
    rw [if_neg Bool.false_ne_true, List.nil_append, ofChars?]
    · simp only [hread, hparts]
    · intro rest hrest
      exact hminus (List.cons.inj (hmagnitude.symm.trans hrest)).1

/-- What is read back is the same number. -/
theorem readBack_equals (a : Decimal) : a.readBack.Equals a := by
  rw [equals_iff, value, value, signed, signed, readBack]
  by_cases hzero : a.coefficient = 0
  · simp [hzero]
  · simp [hzero]

end Decimal

/-! ## Digits in groups -/

/-- The digits of a number: those in front, more of them in groups behind commas, and places. -/
def numeral (first : List Char) (groups : List (List Char)) (fraction : List Char) : List Char :=
  first ++ (groups.flatMap (',' :: ·) ++ fraction)

/-- The groups have three digits each, and at most three are in front of them. Places have a point
in front. -/
structure NumeralParts (first : List Char) (groups : List (List Char)) (fraction : List Char) :
    Prop where
  ne_nil : first ≠ []
  digits : ∀ c ∈ first, c.isDigit
  short : groups ≠ [] → first.length ≤ 3
  groups : ∀ g ∈ groups, g.length = 3 ∧ ∀ c ∈ g, c.isDigit
  fraction : fraction = [] ∨ ∃ places, fraction = '.' :: places ∧ ∀ c ∈ places, c.isDigit

namespace NumeralParts

variable {first fraction : List Char} {groups : List (List Char)} {c : Char}

theorem of_mem_fraction (h : NumeralParts first groups fraction) (hc : c ∈ fraction) :
    c.isDigit ∨ c = '.' := by
  obtain rfl | ⟨places, rfl, hplaces⟩ := h.fraction
  · cases hc
  · exact (List.mem_cons.1 hc).symm.imp_left (hplaces c)

theorem of_mem (h : NumeralParts first groups fraction) (hc : c ∈ numeral first groups fraction) :
    c.isDigit ∨ c = '.' ∨ c = ',' := by
  obtain hc | hc := List.mem_append.1 hc
  · exact .inl (h.digits c hc)
  obtain hc | hc := List.mem_append.1 hc
  · obtain ⟨g, hg, hc⟩ := List.mem_flatMap.1 hc
    obtain rfl | hc := List.mem_cons.1 hc
    · exact .inr (.inr rfl)
    · exact .inl ((h.groups g hg).2 c hc)
  · exact (h.of_mem_fraction hc).imp_right .inl

/-- Without its commas a number is the same digits in one group. -/
theorem filter_commas (h : NumeralParts first groups fraction) :
    (numeral first groups fraction).filter (· ≠ ',') =
      numeral (first ++ groups.flatten) [] fraction := by
  have hdigits {cs : List Char} (hcs : ∀ c ∈ cs, c.isDigit ∨ c = '.') :
      cs.filter (· ≠ ',') = cs := by
    refine List.filter_eq_self.2 fun c hc => decide_eq_true ?_
    rintro rfl
    exact absurd (hcs _ hc) (by decide)
  have hgroups : ∀ g ∈ groups, (',' :: g).filter (· ≠ ',') = g := by
    intro g hg
    rw [List.filter_cons_of_neg (by decide)]
    exact hdigits fun c hc => .inl ((h.groups g hg).2 c hc)
  rw [numeral, List.filter_append, List.filter_append, hdigits fun c hc => .inl (h.digits c hc),
    hdigits fun c hc => h.of_mem_fraction hc, List.filter_flatMap, List.flatMap_congr hgroups,
    List.flatMap_id', numeral, List.append_assoc]
  rfl

end NumeralParts

/-- A decimal is written without groups. -/
theorem Decimal.exists_numeral (a : Decimal) :
    ∃ first fraction, a.magnitude = numeral first [] fraction ∧ NumeralParts first [] fraction := by
  refine ⟨_, if a.scale = 0 then [] else '.' :: fixedDigits a.scale a.coefficient, rfl,
    Nat.toDigits_ne_nil, fun c hc => ?_, fun h => absurd rfl h, List.forall_mem_nil _, ?_⟩
  · exact Nat.isDigit_of_mem_toDigits (by decide) (by decide) hc
  · split
    · exact .inl rfl
    · exact .inr ⟨_, rfl, fun c hc => isDigit_of_mem_fixedDigits hc⟩

end DoubleEntry
