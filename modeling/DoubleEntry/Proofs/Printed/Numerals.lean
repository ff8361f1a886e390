import DoubleEntry.Proofs.Decimal.Text
import DoubleEntry.Proofs.Printed.Lexemes

/-!
# Printed dates and numbers

A date is read as one token whatever follows it, a number in front of a blank or a line break.

* `Token.readAs_date`, `Token.readAs_number`: dates and numbers are read as one token.
* `Token.readAs_numeral`: so are numbers with their digits in groups.
-/

namespace DoubleEntry.Token

variable {cs more : List Char} {c : Char}

/-! ## Dates -/

theorem isDecimalDigit_of_isDigit (h : c.isDigit) : Unicode.isDecimalDigit c := by
  have hle : c.toNat ≤ '9'.toNat := (Char.isDigit_iff_toNat.1 h).2
  have hlt : c.toNat < 128 := Nat.lt_of_le_of_lt hle (by decide)
  rwa [Unicode.isDecimalDigit, if_pos hlt]

theorem twoDigits?_append (hcs : ∀ c ∈ cs, c.isDigit) (hlength : cs.length = 2)
    (more : List Char) : twoDigits? (cs ++ more) = some 2 := by
  have hcount := le_countWhile_append (p := Unicode.isDecimalDigit)
    (fun c hc => isDecimalDigit_of_isDigit (hcs c hc)) more
  have hmin : min 2 (countWhile Unicode.isDecimalDigit (cs ++ more)) = 2 := by omega
  rw [twoDigits?, hmin]
  rfl

/-- A printed day is a day in the text, whatever comes after it. -/
theorem dateLength?_toChars (d : Date) (more : List Char) :
    dateLength? (d.toChars ++ more) = some 10 := by
  have hdigits (k n : Nat) : ∀ c ∈ fixedDigits k n, c.isDigit := fun c =>
    isDigit_of_mem_fixedDigits
  have hseparated (n : Nat) (rest : List Char) :
      separated? ('-' :: (fixedDigits 2 n ++ rest)) = some 2 := by
    rw [separated?, if_pos (by decide), twoDigits?_append (hdigits 2 n) (length_fixedDigits 2 n)]
  have hsplit : d.toChars ++ more = fixedDigits 4 d.year ++
      ('-' :: fixedDigits 2 d.month ++ ('-' :: (fixedDigits 2 d.day ++ more))) := by
    simp [Date.toChars]
  have hyear : (fixedDigits 4 d.year).length = 4 := length_fixedDigits 4 d.year
  have hmonth : ('-' :: fixedDigits 2 d.month).length = 3 := by
    rw [List.length_cons, length_fixedDigits]
  have hcount : (fixedDigits 4 d.year).countP Unicode.isDecimalDigit = 4 := by
    rw [← hyear]
    exact List.countP_eq_length.2 fun c hc => isDecimalDigit_of_isDigit (hdigits 4 d.year c hc)
  rw [hsplit, dateLength?_eq, List.take_left' hyear, hcount, if_neg (by decide),
    List.drop_left' hyear, List.cons_append, hseparated, Option.bind_some,
    ← List.cons_append, ← List.append_assoc, List.drop_left' (by simp [hyear, hmonth])]
  rw [hseparated]
  rfl

/-- A number or date begins with a digit, which is no blank. -/
theorem isBlank_of_isDigit (h : c.isDigit) : isBlank c = false := by
  rw [Bool.eq_false_iff]
  intro hblank
  obtain rfl | rfl : c = ' ' ∨ c = '\t' := by simpa [isBlank] using hblank
  · cases h
  · cases h

theorem exists_toChars_eq_cons (d : Date) : ∃ c tail, d.toChars = c :: tail ∧ c.isDigit := by
  obtain ⟨c, tail, hyear⟩ : ∃ c tail, fixedDigits 4 d.year = c :: tail :=
    List.exists_cons_of_length_pos (by rw [length_fixedDigits]; decide)
  refine ⟨c, _, by rw [Date.toChars, hyear, List.cons_append, List.cons_append], ?_⟩
  exact isDigit_of_mem_fixedDigits (hyear ▸ List.mem_cons_self)

/-- A printed day is read as one token. -/
theorem readAs_date (d : Date) (more : List Char) : ReadAs .date d.toChars more := by
  have hlength : d.toChars.length = 10 := by simp [Date.toChars, length_fixedDigits]
  have hdate := dateLength?_toChars d more
  obtain ⟨c, tail, hcons, hdigit⟩ := exists_toChars_eq_cons d
  rw [hcons] at hlength hdate
  rw [List.cons_append] at hdate
  have htail : tail.length = 9 := Nat.succ.inj hlength
  refine ⟨c, tail, hcons, isBlank_of_isDigit hdigit, ?_⟩
  rw [lexeme_of_isDecimalDigit (isDecimalDigit_of_isDigit hdigit), hdate, htail]

/-! ## Numbers -/

theorem separated?_eq_none (h : ∀ c ∈ cs.head?, isDateSeparator c = false) :
    separated? cs = none := by
  cases cs with
  | nil => rfl
  | cons c cs => rw [separated?, h c rfl, if_neg Bool.false_ne_true]

/-- A text without separators is no date. -/
theorem dateLength?_eq_none (h : ∀ c ∈ cs, isDateSeparator c = false) :
    dateLength? cs = none := by
  have hdrop : separated? (cs.drop 4) = none :=
    separated?_eq_none fun c hc => h c (List.mem_of_mem_drop (List.mem_of_head? hc))
  rw [dateLength?_eq, hdrop]
  exact ite_self none

theorem Follow.endsNumeral {e : Char} (h : Follow [' ', '\n', '\r'] (e :: more)) :
    EndsNumeral e := by
  have he := h e rfl
  simp only [List.mem_cons, List.not_mem_nil, or_false] at he
  obtain rfl | he := he
  · exact endsNumeral_blank
  · exact IsLineEnd.endsNumeral he

/-- A number is not read as a day, since no separator comes after its digits. -/
theorem dateLength?_follow (hcs : ∀ c ∈ cs, isDateSeparator c = false)
    (hmore : Follow [' ', '\n'] more) : dateLength? (cs ++ more) = none := by
  cases more with
  | nil => rw [List.append_nil, dateLength?_eq_none hcs]
  | cons e more =>
    have he : EndsNumeral e := (hmore.mono (by simp)).endsNumeral
    rw [dateLength?_before he, dateLength?_eq_none hcs]

/-- Without a comma there is no group. -/
theorem commaGroups_eq (h : ∀ c ∈ cs.head?, c ≠ ',') : commaGroups cs = (0, false) := by
  rw [commaGroups]
  · rintro a b c rest rfl
    exact h ',' rfl rfl
  · rintro rest rfl
    exact h ',' rfl rfl

theorem fractionLength_eq_zero (h : ∀ c ∈ cs.head?, c ≠ '.') : fractionLength cs = 0 := by
  rw [fractionLength]
  rintro rest rfl
  exact h '.' rfl rfl

/-- Whole groups of digits behind commas. -/
theorem commaGroups_append {groups : List (List Char)}
    (hgroups : ∀ g ∈ groups, g.length = 3 ∧ ∀ c ∈ g, c.isDigit) (hmore : ∀ c ∈ more.head?, c ≠ ',') :
    commaGroups (groups.flatMap (',' :: ·) ++ more) =
      ((groups.flatMap (',' :: ·)).length, false) := by
  induction groups with
  | nil => exact commaGroups_eq hmore
  | cons g groups ih =>
    obtain ⟨⟨hlength, hdigits⟩, hrest⟩ := List.forall_mem_cons.1 hgroups
    obtain ⟨a, b, c, rfl⟩ := List.length_eq_three.1 hlength
    have hall : [a, b, c].all Unicode.isDecimalDigit :=
      List.all_eq_true.2 fun d hd => isDecimalDigit_of_isDigit (hdigits d hd)
    have hcons : ([a, b, c] :: groups).flatMap (',' :: ·) =
        ',' :: a :: b :: c :: groups.flatMap (',' :: ·) := rfl
    simp only [hcons, List.cons_append, commaGroups, if_pos hall, ih hrest, List.length_cons]

section Numeral

variable {first fraction : List Char} {groups : List (List Char)}

/-- A numeral is read to its end, with its groups and its fraction. -/
theorem numberLength_numeral (h : NumeralParts first groups fraction)
    (hmore : Follow [' ', '\n'] more) :
    numberLength (numeral first groups fraction ++ more) =
      ((numeral first groups fraction).length, false) := by
  -- Digits end at a comma or a point, or where the number does.
  have hfraction : ∀ c ∈ (fraction ++ more).head?, c ∈ ['.', ' ', '\n'] := by
    intro c hc
    obtain rfl | ⟨places, rfl, -⟩ := h.fraction
    · exact List.mem_cons_of_mem _ (hmore c hc)
    · obtain rfl := Option.some.inj hc
      exact List.mem_cons_self
  have hhead : ∀ c ∈ (groups.flatMap (',' :: ·) ++ (fraction ++ more)).head?,
      c ∈ [',', '.', ' ', '\n'] := by
    intro c hc
    cases groups with
    | nil => exact List.mem_cons_of_mem _ (hfraction c hc)
    | cons g groups =>
      obtain rfl := Option.some.inj hc
      exact List.mem_cons_self
  have hcount : countWhile Unicode.isDecimalDigit
      (first ++ (groups.flatMap (',' :: ·) ++ (fraction ++ more))) = first.length :=
    countWhile_append (fun c hc => isDecimalDigit_of_isDigit (h.digits c hc))
      (Follow.not hhead rfl)
  have hgroups : (if first.length ≤ 3 then
      commaGroups (groups.flatMap (',' :: ·) ++ (fraction ++ more)) else (0, false)) =
      ((groups.flatMap (',' :: ·)).length, false) := by
    split
    · refine commaGroups_append h.groups fun c hc => ?_
      rintro rfl
      exact absurd (hfraction ',' hc) (by decide)
    · next hlong =>
      obtain rfl : groups = [] := by
        by_contra hne
        exact hlong (h.short hne)
      rfl
  have hplaces : fractionLength (fraction ++ more) = fraction.length := by
    obtain rfl | ⟨places, rfl, hplaces⟩ := h.fraction
    · refine fractionLength_eq_zero fun c hc => ?_
      rintro rfl
      exact absurd (hmore '.' hc) (by decide)
    · rw [List.cons_append, fractionLength, countWhile_append
        (fun c hc => isDecimalDigit_of_isDigit (hplaces c hc)) (hmore.not rfl), List.length_cons,
        Nat.add_comm]
  have hdrop : (first ++ (groups.flatMap (',' :: ·) ++ (fraction ++ more))).drop
      (first.length + (groups.flatMap (',' :: ·)).length) = fraction ++ more := by
    rw [List.drop_length_add_append, List.drop_left]
  rw [numeral, List.append_assoc, List.append_assoc, numberLength]
  simp only [hcount, List.drop_left, hgroups, Bool.false_eq_true, if_false, hdrop, hplaces,
    List.length_append, Nat.add_assoc]

/-- A number in front of a blank or a line break, with or without a minus sign. -/
theorem readAs_numeral (h : NumeralParts first groups fraction) (negative : Bool)
    (hmore : Follow [' ', '\n'] more) :
    ReadAs .number ((if negative then ['-'] else []) ++ numeral first groups fraction) more := by
  obtain ⟨c, tail, hcons⟩ : ∃ c tail, numeral first groups fraction = c :: tail :=
    List.exists_cons_of_ne_nil (List.append_ne_nil_of_left_ne_nil h.ne_nil _)
  have hdigit : c.isDigit := by
    obtain ⟨d, rest, rfl⟩ := List.exists_cons_of_ne_nil h.ne_nil
    obtain ⟨rfl, -⟩ := List.cons.inj hcons
    exact h.digits d List.mem_cons_self
  have hlength := numberLength_numeral h hmore
  have hdate : dateLength? (numeral first groups fraction ++ more) = none := by
    refine dateLength?_follow (fun c hc => ?_) hmore
    rw [Bool.eq_false_iff]
    intro hsign
    obtain rfl | rfl : c = '-' ∨ c = '/' := by simpa [isDateSeparator] using hsign
    · exact absurd (h.of_mem hc) (by decide)
    · exact absurd (h.of_mem hc) (by decide)
  have hfirst := isDecimalDigit_of_isDigit hdigit
  cases negative with
  | false =>
    rw [if_neg Bool.false_ne_true, List.nil_append]
    rw [hcons, List.cons_append] at hlength hdate
    refine ⟨c, tail, hcons, isBlank_of_isDigit hdigit, ?_⟩
    rw [lexeme_of_isDecimalDigit hfirst, hdate, hlength]
    rfl
  | true =>
    rw [if_pos rfl, List.singleton_append]
    refine ⟨'-', numeral first groups fraction, rfl, rfl, ?_⟩
    have hminus : Unicode.isDecimalDigit '-' = false := rfl
    rw [hcons, List.cons_append] at hlength ⊢
    simp [lexeme, hminus, hfirst, hlength]

end Numeral

/-- A printed number is read as one token. -/
theorem readAs_number (a : Decimal) (hmore : Follow [' ', '\n'] more) :
    ReadAs .number a.toChars more := by
  obtain ⟨first, fraction, hmagnitude, hparts⟩ := a.exists_numeral
  rw [Decimal.toChars_eq, hmagnitude]
  exact readAs_numeral hparts a.negative hmore

end DoubleEntry.Token
