import DoubleEntry.Proofs.Decimal.Nearest
import DoubleEntry.Proofs.Decimal.Text

/-!
# The number that digits write

Digits write an integer, and a point among them tells how many of them are places. A decimal read
from them is that number if any decimal is; otherwise it is not far from it.

* `digitsFrom`, `unsignedNumber`: the number that digits write.
* `Decimal.readFraction_reads`: how digits that do not fit are read.
* `Decimal.ofChars?_reads`, `Decimal.ofChars?_minus`: what is read from digits and a sign.
-/

namespace DoubleEntry

/-! ## What digits write -/

/-- The integer that begins with the digits of `m` and goes on with the digits among some
characters. -/
def digitsFrom (m : Nat) (cs : List Char) : Nat :=
  cs.foldl (fun n c => (digit? c).elim n (n * 10 + ·)) m

/-- The number of digits after the point. -/
def placesAfterPoint (cs : List Char) : Nat := (cs.dropWhile (· ≠ '.')).countP Char.isDigit

/-- The number that the digits write. -/
def unsignedNumber (cs : List Char) : ℚ := digitsFrom 0 cs / 10 ^ placesAfterPoint cs

/-- Digits in front, and then digits and at most one point. -/
structure WritesMagnitude (cs : List Char) : Prop where
  begins : ∀ c ∈ cs.head?, c.isDigit
  digits : ∀ c ∈ cs, c.isDigit ∨ c = '.'
  point : cs.count '.' ≤ 1

section Digits

variable {c : Char} {cs cs' : List Char} {m n : Nat}

theorem exists_digit? (h : c.isDigit) : ∃ d, digit? c = some d :=
  Option.ne_none_iff_exists'.1 fun hnone => digit?_eq_none_iff.1 hnone h

theorem digit?_lt {d : Nat} (h : digit? c = some d) : d < 10 := by
  unfold digit? at h
  split at h
  · next hc =>
    obtain rfl := Option.some.inj h
    have hle : c.toNat ≤ '9'.toNat := hc.2
    have hnine : '9'.toNat = 57 := rfl
    have hzero : '0'.toNat = 48 := rfl
    omega
  · cases h

/-- Digits go on from those before them. -/
theorem digitsFrom_append (m : Nat) (cs cs' : List Char) :
    digitsFrom m (cs ++ cs') = digitsFrom (digitsFrom m cs) cs' := List.foldl_append

theorem digitsFrom_cons_digit {d : Nat} (h : digit? c = some d) (m : Nat) (cs : List Char) :
    digitsFrom m (c :: cs) = digitsFrom (m * 10 + d) cs := by
  rw [digitsFrom, List.foldl_cons, h]
  rfl

/-- What is not a digit is passed over. -/
theorem digitsFrom_cons_other (h : ¬c.isDigit) (m : Nat) (cs : List Char) :
    digitsFrom m (c :: cs) = digitsFrom m cs := by
  rw [digitsFrom, List.foldl_cons, digit?_eq_none_iff.2 h]
  rfl

/-- The digits in front count for as much as there are digits behind them. -/
theorem digitsFrom_eq (m : Nat) (cs : List Char) :
    digitsFrom m cs = m * 10 ^ cs.countP Char.isDigit + digitsFrom 0 cs := by
  induction cs generalizing m with
  | nil => simp [digitsFrom]
  | cons c cs ih =>
    by_cases hc : c.isDigit
    · obtain ⟨d, hd⟩ := exists_digit? hc
      rw [digitsFrom_cons_digit hd, digitsFrom_cons_digit hd, ih, ih (0 * 10 + d),
        List.countP_cons_of_pos hc, pow_succ]
      ring
    · rw [digitsFrom_cons_other hc, digitsFrom_cons_other hc, ih,
        List.countP_cons_of_neg (by simpa using hc)]

/-- So many digits write a number with no more digits. -/
theorem digitsFrom_zero_lt (cs : List Char) : digitsFrom 0 cs < 10 ^ cs.countP Char.isDigit := by
  induction cs with
  | nil => simp [digitsFrom]
  | cons c cs ih =>
    by_cases hc : c.isDigit
    · obtain ⟨d, hd⟩ := exists_digit? hc
      have hlt := digit?_lt hd
      rw [digitsFrom_cons_digit hd, digitsFrom_eq, List.countP_cons_of_pos hc, pow_succ]
      nlinarith
    · rwa [digitsFrom_cons_other hc, List.countP_cons_of_neg (by simpa using hc)]

theorem digitsFrom_zero_eq_zero_iff :
    digitsFrom 0 cs = 0 ↔ ∀ c ∈ cs, c.isDigit → c = '0' := by
  induction cs with
  | nil => simp [digitsFrom]
  | cons c cs ih =>
    rw [List.forall_mem_cons]
    by_cases hc : c.isDigit
    · obtain ⟨d, hd⟩ := exists_digit? hc
      have hzero : d = 0 ↔ c = '0' := by
        rw [digit?] at hd
        obtain ⟨⟨hle, -⟩, hd⟩ := Option.ite_none_right_eq_some.1 hd
        have hge : '0'.toNat ≤ c.toNat := hle
        constructor
        · rintro rfl
          have hvalue : c.toNat - '0'.toNat = 0 := Option.some.inj hd
          exact Char.toNat_inj.1 (by omega)
        · rintro rfl
          exact (Option.some.inj hd).symm
      have hpow : 10 ^ cs.countP Char.isDigit ≠ 0 := by positivity
      rw [digitsFrom_cons_digit hd, digitsFrom_eq, Nat.add_eq_zero_iff, ih, Nat.zero_mul,
        Nat.zero_add, Nat.mul_eq_zero, or_iff_left hpow, hzero]
      simp [hc]
    · rw [digitsFrom_cons_other hc, ih]
      simp [hc]

theorem dropWhile_append_digits {whole : List Char} (h : ∀ c ∈ whole, c.isDigit)
    (rest : List Char) :
    (whole ++ rest).dropWhile (· ≠ '.') = rest.dropWhile (· ≠ '.') := by
  refine List.dropWhile_append_of_pos fun c hc => ?_
  have hne : c ≠ '.' := by
    rintro rfl
    exact absurd (h _ hc) (by decide)
  simpa using hne

/-- Digits in front of a number count for ten times as much, at least. -/
theorem unsignedNumber_append {lead rest : List Char} (hlead : ∀ c ∈ lead, c.isDigit)
    (hrest : ∃ c tail, rest = c :: tail ∧ c.isDigit) :
    ∃ k, unsignedNumber (lead ++ rest) =
      digitsFrom 0 lead * 10 ^ (k + 1) + unsignedNumber rest := by
  have hplaces : placesAfterPoint (lead ++ rest) = placesAfterPoint rest := by
    rw [placesAfterPoint, dropWhile_append_digits hlead, placesAfterPoint]
  obtain ⟨k, hk⟩ : ∃ k, rest.countP Char.isDigit = k + 1 + placesAfterPoint rest := by
    obtain ⟨c, tail, rfl, hc⟩ := hrest
    have hne : c ≠ '.' := by
      rintro rfl
      exact absurd hc (by decide)
    have hdrop : (c :: tail).dropWhile (· ≠ '.') = tail.dropWhile (· ≠ '.') :=
      List.dropWhile_cons_of_pos (by simpa using hne)
    have hle : placesAfterPoint (c :: tail) ≤ tail.countP Char.isDigit := by
      rw [placesAfterPoint, hdrop]
      exact (List.dropWhile_sublist _).countP_le
    exact ⟨tail.countP Char.isDigit - placesAfterPoint (c :: tail), by
      rw [List.countP_cons_of_pos hc]; omega⟩
  refine ⟨k, ?_⟩
  rw [unsignedNumber, hplaces, digitsFrom_append, digitsFrom_eq, hk, unsignedNumber, pow_add]
  push_cast
  rw [add_div, ← mul_assoc, mul_div_assoc, div_self (by positivity), mul_one]

end Digits

namespace Decimal

variable {c : Char} {cs rest : List Char} {m q s k : Nat}

/-- The number is the value of a decimal. -/
def IsValue (x : ℚ) : Prop := ∃ a : Decimal, a.value = x

/-! ## Digits in front of the point -/

/-- In front of the point, all digits are read, and they write the number. -/
theorem readWhole_reads (h : readWhole m cs = some (q, rest)) (hm : m < limit) :
    ∃ whole, cs = whole ++ rest ∧ (∀ c ∈ whole, c.isDigit) ∧ q = digitsFrom m whole ∧
      (∀ c ∈ rest.head?, ¬c.isDigit) ∧ q < limit := by
  induction cs generalizing m with
  | nil =>
    obtain ⟨rfl, rfl⟩ : m = q ∧ [] = rest := by simpa [readWhole] using h
    exact ⟨[], rfl, List.forall_mem_nil _, rfl, by rintro c ⟨⟩, hm⟩
  | cons c cs ih =>
    rw [readWhole] at h
    cases hc : digit? c with
    | none =>
      rw [hc] at h
      obtain ⟨rfl, rfl⟩ : m = q ∧ c :: cs = rest := by simpa using h
      refine ⟨[], rfl, List.forall_mem_nil _, rfl, ?_, hm⟩
      rintro _ ⟨⟩
      exact digit?_eq_none_iff.1 hc
    | some d =>
      rw [hc] at h
      obtain ⟨hd, h⟩ := Option.ite_none_right_eq_some.1 h
      obtain ⟨whole, rfl, hwhole, rfl, hrest, hq⟩ := ih h hd
      have hdigit : c.isDigit := by
        by_contra hnot
        rw [digit?_eq_none_iff.2 hnot] at hc
        cases hc
      exact ⟨c :: whole, rfl, List.forall_mem_cons.2 ⟨hdigit, hwhole⟩,
        (digitsFrom_cons_digit hc m whole).symm, hrest, hq⟩

/-! ## Digits after the point -/

/-- What `s` digits after the point come to with those that follow them. -/
def continued (m s : Nat) (cs : List Char) : ℚ :=
  digitsFrom m cs / 10 ^ (s + cs.countP Char.isDigit)

theorem continued_nil (m s : Nat) : continued m s [] = m / 10 ^ s := rfl

theorem continued_cons {d : Nat} (hd : digit? c = some d) (m s : Nat) (cs : List Char) :
    continued m s (c :: cs) = continued (m * 10 + d) (s + 1) cs := by
  have hc : c.isDigit := by
    by_contra hnot
    rw [digit?_eq_none_iff.2 hnot] at hd
    cases hd
  rw [continued, continued, digitsFrom_cons_digit hd, List.countP_cons_of_pos hc]
  congr 2
  omega

/-- More digits after the point add less than one unit of the last place so far. -/
theorem continued_bounds (m s : Nat) (cs : List Char) :
    (m : ℚ) / 10 ^ s ≤ continued m s cs ∧ continued m s cs < (m + 1) / 10 ^ s := by
  have hlt : ((digitsFrom 0 cs : Nat) : ℚ) < 10 ^ cs.countP Char.isDigit := by
    exact_mod_cast digitsFrom_zero_lt cs
  have hnonneg : (0 : ℚ) ≤ (digitsFrom 0 cs : Nat) := Nat.cast_nonneg _
  have hpow : (0 : ℚ) < 10 ^ cs.countP Char.isDigit := by positivity
  rw [continued, digitsFrom_eq, pow_add]
  push_cast
  constructor
  · rw [div_le_div_iff₀ (by positivity) (by positivity)]
    nlinarith [show (0 : ℚ) < 10 ^ s by positivity]
  · rw [div_lt_div_iff₀ (by positivity) (by positivity)]
    nlinarith [show (0 : ℚ) < 10 ^ s by positivity]

/-- A decimal that begins with digits behind which no other fits has no further digits. -/
theorem IsValue.eq_of_full {x : ℚ} (h : IsValue x) (hx : (m : ℚ) / 10 ^ s ≤ x)
    (hlt : x < (m + 1) / 10 ^ s)
    (hfull : maxScale ≤ s ∨ (limit : ℚ) / 10 ^ (s + 1) ≤ x) : x = m / 10 ^ s := by
  obtain ⟨a, rfl⟩ := h
  have hpos (n : Nat) : (0 : ℚ) < 10 ^ n := by positivity
  have hnonneg : 0 ≤ a.value := (div_nonneg (Nat.cast_nonneg _) (hpos s).le).trans hx
  have hvalue : a.value = a.coefficient / 10 ^ a.scale := by
    rw [← abs_value, abs_of_nonneg hnonneg]
  have hscale : a.scale ≤ s := by
    obtain hmax | hlimit := hfull
    · exact a.scale_le.trans hmax
    · by_contra hlt
      have hpow : (10 : ℚ) ^ (s + 1) ≤ 10 ^ a.scale := pow_le_pow_right₀ (by norm_num) (by omega)
      have hcoefficient : (a.coefficient : ℚ) < limit := by exact_mod_cast a.coefficient_lt
      have hsmall : a.value < limit / 10 ^ (s + 1) := by
        rw [hvalue]
        calc (a.coefficient : ℚ) / 10 ^ a.scale < limit / 10 ^ a.scale := by
              exact div_lt_div_of_pos_right hcoefficient (hpos _)
          _ ≤ limit / 10 ^ (s + 1) := by
              exact div_le_div_of_nonneg_left (Nat.cast_nonneg _) (hpos _) hpow
      linarith
  -- With `s` places the digits are an integer between `m` and `m + 1`.
  have hdigits : a.value = (a.coefficient * 10 ^ (s - a.scale) : Nat) / 10 ^ s := by
    rw [hvalue, div_eq_div_iff (hpos _).ne' (hpos _).ne']
    push_cast
    rw [mul_assoc, ← pow_add, Nat.sub_add_cancel hscale]
  rw [hdigits, div_le_div_iff_of_pos_right (hpos s)] at hx
  rw [hdigits, div_lt_div_iff_of_pos_right (hpos s)] at hlt
  have hle : m ≤ a.coefficient * 10 ^ (s - a.scale) := by exact_mod_cast hx
  have hge : a.coefficient * 10 ^ (s - a.scale) < m + 1 := by exact_mod_cast hlt
  rw [hdigits, show a.coefficient * 10 ^ (s - a.scale) = m by omega]

theorem roundUp_le (h : roundUp m s = some (q, k)) : (q : ℚ) / 10 ^ k ≤ m / 10 ^ s + 1 := by
  have hone : (1 : ℚ) ≤ 10 ^ s := one_le_pow₀ (by norm_num)
  unfold roundUp at h
  split at h
  · obtain ⟨rfl, rfl⟩ : m + 1 = q ∧ s = k := by simpa using h
    push_cast
    rw [add_div]
    have hsmall : (1 : ℚ) / 10 ^ s ≤ 1 := (div_le_one (by positivity)).2 hone
    linarith
  · split at h
    · cases h
    · next hs =>
      obtain ⟨rfl, rfl⟩ : (m + 5) / 10 = q ∧ s - 1 = k := by simpa using h
      have hten : (10 : ℚ) ^ s = 10 ^ (s - 1) * 10 := by
        rw [← pow_succ, Nat.sub_add_cancel (Nat.pos_of_ne_zero hs)]
      have hdiv : (((m + 5) / 10 : Nat) : ℚ) ≤ (m + 5) / 10 := by
        rw [le_div_iff₀ (by norm_num)]
        exact_mod_cast Nat.div_mul_le_self (m + 5) 10
      calc (((m + 5) / 10 : Nat) : ℚ) / 10 ^ (s - 1) ≤ (m + 5) / 10 / 10 ^ (s - 1) :=
            div_le_div_of_nonneg_right hdiv (by positivity)
        _ = m / 10 ^ s + 5 / 10 ^ s := by
            rw [hten, div_div, mul_comm (10 : ℚ) (10 ^ (s - 1)), add_div]
        _ ≤ m / 10 ^ s + 1 := by
            have hfive : (5 : ℚ) / 10 ^ s ≤ 1 := by
              rw [div_le_one (by positivity), hten]
              have : (1 : ℚ) ≤ 10 ^ (s - 1) := one_le_pow₀ (by norm_num)
              linarith
            linarith

/-- Digits after the point are read as what they write if a decimal has that value, and as at most
one more otherwise. -/
theorem readFraction_reads (h : readFraction m s cs = some (q, k)) (hcs : ∀ c ∈ cs, c.isDigit) :
    (q : ℚ) / 10 ^ k ≤ continued m s cs + 1 ∧
      (IsValue (continued m s cs) → (q : ℚ) / 10 ^ k = continued m s cs) := by
  induction cs generalizing m s with
  | nil =>
    obtain ⟨rfl, rfl⟩ : m = q ∧ s = k := by simpa [readFraction] using h
    rw [continued_nil]
    exact ⟨by linarith, fun _ => rfl⟩
  | cons c cs ih =>
    obtain ⟨hc, hcs⟩ := List.forall_mem_cons.1 hcs
    obtain ⟨d, hd⟩ := exists_digit? hc
    rw [readFraction, hd] at h
    simp only at h
    split at h
    · rw [continued_cons hd]
      exact ih h hcs
    next hfull =>
    obtain ⟨hge, hlt⟩ := continued_bounds m s (c :: cs)
    have hnext : ((m * 10 + d : Nat) : ℚ) / 10 ^ (s + 1) ≤ continued m s (c :: cs) := by
      rw [continued_cons hd]
      exact (continued_bounds _ _ _).1
    have hvalue : IsValue (continued m s (c :: cs)) → continued m s (c :: cs) = m / 10 ^ s := by
      intro hvalue
      refine hvalue.eq_of_full hge hlt ?_
      rcases not_and_or.1 hfull with hscale | hlimit
      · exact .inl (Nat.le_of_not_lt hscale)
      · refine .inr (le_trans ?_ hnext)
        have hle : (limit : ℚ) ≤ (m * 10 + d : Nat) := by exact_mod_cast Nat.le_of_not_lt hlimit
        exact div_le_div_of_nonneg_right hle (by positivity)
    split at h
    · next hup =>
      refine ⟨(roundUp_le h).trans (by linarith), fun hv => ?_⟩
      -- The digit that is dropped is not zero.
      exfalso
      rw [hvalue hv, pow_succ, div_le_div_iff₀ (by positivity) (by positivity)] at hnext
      have hpos : (0 : ℚ) < 10 ^ s := by positivity
      have hfive : (5 : ℚ) ≤ d := by exact_mod_cast hup
      push_cast at hnext
      nlinarith
    · obtain ⟨rfl, rfl⟩ : m = q ∧ s = k := by simpa using h
      exact ⟨by linarith, fun hv => (hvalue hv).symm⟩

/-! ## Whole numbers -/

theorem value_of_ofParts? {negative : Bool} {a : Decimal}
    (h : ofParts? (negative && m != 0) m s = some a) :
    a.value = (if negative then -1 else 1) * (m / 10 ^ s) := by
  obtain ⟨hnegative, hcoefficient, hscale⟩ := ofParts?_eq_some h
  rw [value, signed, hnegative, hcoefficient, hscale]
  by_cases hm : m = 0
  · simp [hm]
  · cases negative <;> simp [hm, neg_div]

/-- What digits are read as: what they write if a decimal has that value, and at most one more
otherwise. -/
theorem readMagnitude_reads (h : readMagnitude cs = some (q, k)) (hcs : WritesMagnitude cs) :
    (q : ℚ) / 10 ^ k ≤ unsignedNumber cs + 1 ∧
      (IsValue (unsignedNumber cs) → (q : ℚ) / 10 ^ k = unsignedNumber cs) := by
  have hpoint : ¬ '.'.isDigit := by decide
  unfold readMagnitude at h
  split at h
  · cases h
  obtain ⟨-, h⟩ := Option.ite_none_left_eq_some.1 h
  split at h
  · next m hwhole =>
    obtain ⟨rfl, rfl⟩ : m = q ∧ 0 = k := by simpa using h
    obtain ⟨whole, hsplit, hdigits, hm, -⟩ := readWhole_reads hwhole (by decide)
    have hplaces : placesAfterPoint whole = 0 := by
      have := dropWhile_append_digits hdigits []
      rw [List.append_nil] at this
      rw [placesAfterPoint, this]
      rfl
    rw [hsplit, List.append_nil, unsignedNumber, hplaces, ← hm]
    exact ⟨by linarith, fun _ => rfl⟩
  · next m fraction hwhole =>
    obtain ⟨whole, hsplit, hdigits, hm, -⟩ := readWhole_reads hwhole (by decide)
    have hcount := hcs.point
    have hall := hcs.digits
    rw [hsplit] at hcount hall ⊢
    have hfraction : ∀ c ∈ fraction, c.isDigit := by
      intro c hc
      refine (hall c (by simp [hc])).resolve_right ?_
      rintro rfl
      have := List.one_le_count_iff.2 hc
      rw [List.count_append, List.count_cons_self] at hcount
      omega
    have hplaces : placesAfterPoint (whole ++ '.' :: fraction) = fraction.countP Char.isDigit := by
      rw [placesAfterPoint, dropWhile_append_digits hdigits, List.dropWhile_cons_of_neg (by simp),
        List.countP_cons_of_neg hpoint]
    have hnumber : unsignedNumber (whole ++ '.' :: fraction) = continued m 0 fraction := by
      rw [unsignedNumber, hplaces, digitsFrom_append, digitsFrom_cons_other hpoint, ← hm,
        continued, Nat.zero_add]
    rw [hnumber]
    exact readFraction_reads h hfraction
  · cases h

/-- Without a minus sign, a number is its magnitude. -/
theorem ofChars?_of_ne (hcs : ∀ c ∈ cs.head?, c ≠ '-') :
    ofChars? cs = (readMagnitude cs).bind fun p => ofParts? false p.1 p.2 := by
  rw [ofChars?]
  · simp only [Bool.false_and]
    cases readMagnitude cs <;> rfl
  · rintro rest rfl
    exact hcs '-' rfl rfl

/-- A sign in front of digits changes that of the number, but a zero has none. -/
theorem ofChars?_minus (hcs : ∀ c ∈ cs.head?, c ≠ '-') :
    ofChars? ('-' :: cs) = (ofChars? cs).map fun a => a.neg.readBack := by
  rw [ofChars?_of_ne hcs, ofChars?]
  simp only [Bool.true_and]
  cases readMagnitude cs with
  | none => rfl
  | some p =>
    simp only [Option.bind_some, ofParts?]
    split <;> rfl

theorem value_neg_readBack (a : Decimal) : a.neg.readBack.value = -a.value := by
  rw [equals_iff.1 a.neg.readBack_equals, value_neg]

/-- What digits without a sign are read as. -/
theorem ofChars?_reads {a : Decimal} (h : ofChars? cs = some a) (hcs : WritesMagnitude cs) :
    a.value ≤ unsignedNumber cs + 1 ∧
      (IsValue (unsignedNumber cs) → a.value = unsignedNumber cs) := by
  have hminus : ∀ c ∈ cs.head?, c ≠ '-' := by
    rintro c hc rfl
    exact absurd (hcs.begins _ hc) (by decide)
  rw [ofChars?_of_ne hminus] at h
  obtain ⟨⟨m, s⟩, hread, h⟩ := Option.bind_eq_some_iff.1 h
  have hvalue : a.value = m / 10 ^ s := by
    have hparts : ofParts? (false && m != 0) m s = some a := by simpa using h
    rw [value_of_ofParts? hparts]
    simp
  rw [hvalue]
  exact readMagnitude_reads hread hcs

theorem IsValue.neg {x : ℚ} (h : IsValue x) : IsValue (-x) := by
  obtain ⟨a, rfl⟩ := h
  exact ⟨a.neg, value_neg a⟩

end Decimal

end DoubleEntry
