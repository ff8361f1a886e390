import DoubleEntry.Proofs.Journal.TokenPlaces
import DoubleEntry.Proofs.Printed.Numerals

/-!
# Number tokens

Where the token ends that a number begins with. Groups of three digits with commas in between belong
to it, and a comma in front of fewer digits does so only behind a minus sign: there it is the last
character, and what is in front of it becomes a part of the sign.

* `IsUnsigned`: digits, commas and a point, as they are written in a number.
* `IsMisgrouped`: a negative number with a comma in front of only one or two digits.
* `Token.comma_of_numberLength`, `Token.broken_of_numberLength`: the commas of a number token.
* `Token.readAs_unsigned`, `Token.readAs_minus_unsigned`: the token at the beginning of a number.
* `not_isMisgrouped_of_whole`, `isMisgrouped_iff_of_broken`: which negative numbers are misgrouped.
-/

namespace DoubleEntry

open Token

/-- A digit in front, and then digits, commas and at most one point. -/
structure IsUnsigned (cs : List Char) : Prop where
  begins : ∃ c rest, cs = c :: rest ∧ c.isDigit
  chars : ∀ c ∈ cs, c.isDigit ∨ c = ',' ∨ c = '.'
  point : cs.count '.' ≤ 1

/-- A minus sign and, behind a digit other than zero, a comma with only one or two digits after
it. -/
def IsMisgrouped (cs : List Char) : Prop :=
  ∃ lead digits rest, cs = '-' :: (lead ++ ',' :: (digits ++ rest)) ∧
    (∃ d ∈ lead, d.isDigit ∧ d ≠ '0') ∧ (∀ d ∈ digits, d.isDigit) ∧
    1 ≤ digits.length ∧ digits.length ≤ 2 ∧ ∀ d ∈ rest.head?, ¬d.isDigit

/-! ## Number tokens -/

namespace Token

variable {cs lead rest more : List Char} {n : Nat} {broken : Bool}

/-- Three digits in front. -/
def BeginsGroup (cs : List Char) : Prop :=
  ∃ a b c rest, cs = a :: b :: c :: rest ∧ [a, b, c].all Unicode.isDecimalDigit

theorem not_isDecimalDigit_comma : Unicode.isDecimalDigit ',' = false := rfl

/-- A comma among the groups stands in front of one, or it is the last character and breaks them. -/
theorem comma_of_commaGroups (h : commaGroups cs = (n, broken))
    (hcomma : cs.take n = lead ++ ',' :: rest) : BeginsGroup rest ∨ broken ∧ rest = [] := by
  induction cs using commaGroups.induct generalizing n lead with
  | case1 a b c tail hall k broken' hgroups ih =>
    rw [commaGroups, if_pos hall, hgroups] at h
    obtain ⟨rfl, rfl⟩ := Prod.mk.inj h
    simp only [List.take_succ_cons] at hcomma
    cases lead with
    | nil =>
      obtain ⟨-, rfl⟩ := List.cons.inj hcomma
      exact .inl ⟨a, b, c, _, rfl, hall⟩
    | cons d lead =>
      obtain ⟨-, hcomma⟩ := List.cons.inj hcomma
      have hne : ∀ x ∈ [a, b, c], x ≠ ',' := by
        rintro x hx rfl
        exact absurd (List.all_eq_true.1 hall ',' hx) (by decide)
      obtain _ | ⟨x, _ | ⟨y, _ | ⟨z, lead⟩⟩⟩ := lead
      · exact absurd (List.cons.inj hcomma).1 (hne a (by simp))
      · exact absurd (List.cons.inj (List.cons.inj hcomma).2).1 (hne b (by simp))
      · exact absurd (List.cons.inj (List.cons.inj (List.cons.inj hcomma).2).2).1 (hne c (by simp))
      · exact ih hgroups (List.cons.inj (List.cons.inj (List.cons.inj hcomma).2).2).2
  | case2 a b c tail hall =>
    rw [commaGroups, if_neg hall] at h
    obtain ⟨rfl, rfl⟩ := Prod.mk.inj h
    obtain ⟨-, hrest⟩ : lead = [] ∧ rest = [] := by
      cases lead with
      | nil => exact ⟨rfl, (List.cons.inj hcomma).2.symm⟩
      | cons d lead => simp at hcomma
    exact .inr ⟨rfl, hrest⟩
  | case3 tail hshort =>
    rw [commaGroups_broken fun a b c rest hrest => absurd hrest (hshort a b c rest)] at h
    obtain ⟨rfl, rfl⟩ := Prod.mk.inj h
    obtain ⟨-, hrest⟩ : lead = [] ∧ rest = [] := by
      cases lead with
      | nil => exact ⟨rfl, (List.cons.inj hcomma).2.symm⟩
      | cons d lead => simp at hcomma
    exact .inr ⟨rfl, hrest⟩
  | case4 tail hgroup hcomma' =>
    rw [commaGroups] at h
    · obtain ⟨rfl, rfl⟩ := Prod.mk.inj h
      simp at hcomma
    · exact hgroup
    · exact hcomma'

/-- Broken groups end with a comma that no group follows. -/
theorem broken_of_commaGroups (h : commaGroups cs = (n, true)) :
    ∃ lead, cs.take n = lead ++ [','] ∧ ¬BeginsGroup (cs.drop n) := by
  induction cs using commaGroups.induct generalizing n with
  | case1 a b c tail hall k broken hgroups ih =>
    rw [commaGroups, if_pos hall, hgroups] at h
    obtain ⟨rfl, rfl⟩ := Prod.mk.inj h
    obtain ⟨lead, htake, hdrop⟩ := ih hgroups
    exact ⟨',' :: a :: b :: c :: lead, by simp [htake], by simpa using hdrop⟩
  | case2 a b c tail hall =>
    rw [commaGroups, if_neg hall] at h
    obtain ⟨rfl, -⟩ := Prod.mk.inj h
    refine ⟨[], rfl, ?_⟩
    rintro ⟨x, y, z, rest, heq, hxyz⟩
    obtain ⟨rfl, rfl, rfl, -⟩ : a = x ∧ b = y ∧ c = z ∧ tail = rest := by simpa using heq
    exact hall hxyz
  | case3 tail hshort =>
    rw [commaGroups_broken fun a b c rest hrest => absurd hrest (hshort a b c rest)] at h
    obtain ⟨rfl, -⟩ := Prod.mk.inj h
    refine ⟨[], rfl, ?_⟩
    rintro ⟨x, y, z, rest, heq, -⟩
    exact hshort x y z rest heq
  | case4 tail hgroup hcomma =>
    rw [commaGroups] at h
    · cases h
    · exact hgroup
    · exact hcomma

/-- The groups hold digits and commas. -/
theorem of_mem_commaGroups {c : Char} (h : commaGroups cs = (n, broken)) (hc : c ∈ cs.take n) :
    c = ',' ∨ Unicode.isDecimalDigit c := by
  induction cs using commaGroups.induct generalizing n with
  | case1 x y z tail hall k broken' hgroups ih =>
    rw [commaGroups, if_pos hall, hgroups] at h
    obtain ⟨rfl, rfl⟩ := Prod.mk.inj h
    simp only [List.take_succ_cons, List.mem_cons] at hc
    have hdigit := List.all_eq_true.1 hall
    obtain rfl | rfl | rfl | rfl | hc := hc
    · exact .inl rfl
    · exact .inr (hdigit _ (by simp))
    · exact .inr (hdigit _ (by simp))
    · exact .inr (hdigit _ (by simp))
    · exact ih hgroups hc
  | case2 x y z tail hall =>
    rw [commaGroups, if_neg hall] at h
    obtain ⟨rfl, rfl⟩ := Prod.mk.inj h
    exact .inl (List.mem_singleton.1 hc)
  | case3 tail hshort =>
    rw [commaGroups_broken fun a b c rest hrest => absurd hrest (hshort a b c rest)] at h
    obtain ⟨rfl, rfl⟩ := Prod.mk.inj h
    exact .inl (List.mem_singleton.1 hc)
  | case4 tail hgroup hcomma =>
    rw [commaGroups] at h
    · obtain ⟨rfl, rfl⟩ := Prod.mk.inj h
      cases hc
    · exact hgroup
    · exact hcomma

theorem le_of_numberLength (h : numberLength cs = (n, broken)) : n ≤ cs.length := by
  have hle := numberLength_le cs
  rwa [h] at hle

/-- A fraction is a point with digits behind it. -/
theorem of_mem_fraction {c : Char} (hc : c ∈ cs.take (fractionLength cs)) :
    c = '.' ∨ Unicode.isDecimalDigit c := by
  cases cs with
  | nil => cases hc
  | cons d rest =>
    by_cases hd : d = '.'
    · subst hd
      rw [fractionLength, Nat.add_comm, List.take_succ_cons, List.mem_cons] at hc
      refine hc.imp id fun hc => ?_
      have htake : rest.take (countWhile Unicode.isDecimalDigit rest) =
          rest.takeWhile Unicode.isDecimalDigit :=
        (List.prefix_iff_eq_take.1 (List.takeWhile_prefix _)).symm
      exact List.mem_takeWhile_imp (htake ▸ hc)
    · have hzero : fractionLength (d :: rest) = 0 :=
        fractionLength_eq_zero (by rintro c ⟨⟩; exact hd)
      rw [hzero] at hc
      cases hc

/-- The parts of a number: digits, groups of digits and, if the groups are not broken, a
fraction. -/
theorem exists_parts_of_numberLength (h : numberLength cs = (n, broken)) :
    ∃ whole after k fraction, cs = whole ++ after ∧ (∀ c ∈ whole, Unicode.isDecimalDigit c) ∧
      (commaGroups after = (k, broken) ∨ k = 0 ∧ broken = false) ∧
      cs.take n = whole ++ (after.take k ++ fraction) ∧
      (∀ c ∈ fraction, c = '.' ∨ Unicode.isDecimalDigit c) ∧
      (broken → fraction = [] ∧ cs.drop n = after.drop k) := by
  have hsplit : cs = cs.takeWhile Unicode.isDecimalDigit ++
      cs.drop (countWhile Unicode.isDecimalDigit cs) :=
    (List.prefix_iff_eq_append.1 (List.takeWhile_prefix _)).symm
  have hwhole : ∀ c ∈ cs.takeWhile Unicode.isDecimalDigit, Unicode.isDecimalDigit c := fun c =>
    List.mem_takeWhile_imp
  have hlength : (cs.takeWhile Unicode.isDecimalDigit).length =
      countWhile Unicode.isDecimalDigit cs := rfl
  simp only [numberLength] at h
  generalize countWhile Unicode.isDecimalDigit cs = digits at h hsplit hlength
  generalize hafter : cs.drop digits = after at h hsplit
  generalize cs.takeWhile Unicode.isDecimalDigit = whole at hsplit hwhole hlength
  generalize hgroups : (if digits ≤ 3 then commaGroups after else (0, false)) = groups at h
  obtain ⟨k, broken'⟩ := groups
  have hk : commaGroups after = (k, broken') ∨ k = 0 ∧ broken' = false := by
    split at hgroups
    · exact .inl hgroups
    · obtain ⟨rfl, rfl⟩ := Prod.mk.inj hgroups
      exact .inr ⟨rfl, rfl⟩
  have htake (f : Nat) : cs.take (digits + k + f) =
      whole ++ (after.take k ++ (after.drop k).take f) := by
    rw [hsplit, ← hlength, Nat.add_assoc, List.take_length_add_append, List.take_add]
  split at h
  · next hbroken =>
    obtain ⟨rfl, rfl⟩ := Prod.mk.inj h
    obtain rfl : broken' = true := hbroken
    refine ⟨whole, after, k, [], hsplit, hwhole, hk, by simpa using htake 0,
      List.forall_mem_nil _, fun _ => ⟨rfl, ?_⟩⟩
    rw [← hafter, List.drop_drop]
  · next hbroken =>
    obtain ⟨rfl, rfl⟩ := Prod.mk.inj h
    obtain rfl : broken' = false := by simpa using hbroken
    have hdrop : cs.drop (digits + k) = after.drop k := by rw [← hafter, List.drop_drop]
    refine ⟨whole, after, k, _, hsplit, hwhole, hk, htake _, fun c hc => ?_,
      fun h => absurd h (by decide)⟩
    exact of_mem_fraction (hdrop ▸ hc)

/-- Characters that stand before others do so in front of or behind the place where two texts
meet. -/
theorem split_of_not_mem_left {xs ys : List Char} (hxs : ',' ∉ xs)
    (h : xs ++ ys = lead ++ ',' :: rest) :
    ∃ lead', lead = xs ++ lead' ∧ ys = lead' ++ ',' :: rest := by
  obtain ⟨zs, rfl, rfl⟩ | ⟨zs, rfl, hzs⟩ := List.append_eq_append_iff.1 h
  · exact ⟨zs, rfl, rfl⟩
  · cases zs with
    | nil => exact ⟨[], by simp, by simpa using hzs.symm⟩
    | cons z zs =>
      obtain ⟨rfl, -⟩ := List.cons.inj hzs
      exact absurd (by simp) hxs

theorem split_of_not_mem_right {xs ys : List Char} (hys : ',' ∉ ys)
    (h : xs ++ ys = lead ++ ',' :: rest) :
    ∃ rest', rest = rest' ++ ys ∧ xs = lead ++ ',' :: rest' := by
  obtain ⟨zs, rfl, rfl⟩ | ⟨zs, rfl, hzs⟩ := List.append_eq_append_iff.1 h
  · exact absurd (by simp) hys
  · cases zs with
    | nil => exact absurd (by rw [← List.nil_append ys, ← hzs]; simp) hys
    | cons z zs =>
      obtain ⟨rfl, rfl⟩ := List.cons.inj hzs
      exact ⟨zs, rfl, rfl⟩

/-- A comma in a number stands in front of three digits, or it is the last character. -/
theorem comma_of_numberLength (h : numberLength cs = (n, broken))
    (hcomma : cs.take n = lead ++ ',' :: rest) : BeginsGroup rest ∨ broken ∧ rest = [] := by
  obtain ⟨whole, after, k, fraction, -, hwhole, hgroups, htake, hfraction, hbroken⟩ :=
    exists_parts_of_numberLength h
  have hnot : ',' ∉ whole := fun hmem => absurd (hwhole _ hmem) (by decide)
  have hnot' : ',' ∉ fraction := fun hmem => absurd (hfraction _ hmem) (by decide)
  obtain ⟨lead', -, hafter⟩ := split_of_not_mem_left hnot (htake.symm.trans hcomma)
  obtain ⟨rest', rfl, hinside⟩ := split_of_not_mem_right hnot' hafter
  obtain hgroups | ⟨rfl, -⟩ := hgroups
  · obtain ⟨a, b, c, tail, rfl, hall⟩ | ⟨hb, rfl⟩ := comma_of_commaGroups hgroups hinside
    · exact .inl ⟨a, b, c, tail ++ fraction, rfl, hall⟩
    · exact .inr ⟨hb, by rw [(hbroken hb).1]; rfl⟩
  · simp at hinside

/-- A number whose groups are broken ends with a comma that no three digits follow, and has digits
and commas only. -/
theorem broken_of_numberLength (h : numberLength cs = (n, true)) :
    ∃ lead rest, cs = lead ++ ',' :: rest ∧ n = lead.length + 1 ∧
      (∀ c ∈ lead, c = ',' ∨ Unicode.isDecimalDigit c) ∧ ¬BeginsGroup rest := by
  obtain ⟨whole, after, k, fraction, -, hwhole, hgroups, htake, -, hbroken⟩ :=
    exists_parts_of_numberLength h
  obtain ⟨rfl, hdrop⟩ := hbroken rfl
  obtain hgroups | ⟨-, hfalse⟩ := hgroups
  · obtain ⟨lead, hlead, hnot⟩ := broken_of_commaGroups hgroups
    have htake : cs.take n = (whole ++ lead) ++ [','] := by rw [htake, hlead]; simp
    have hn : n = (whole ++ lead).length + 1 := by
      rw [← List.length_take_of_le (le_of_numberLength h), htake, List.length_append,
        List.length_singleton]
    refine ⟨whole ++ lead, cs.drop n, ?_, hn, fun c hc => ?_, hdrop ▸ hnot⟩
    · rw [← List.singleton_append, ← List.append_assoc, ← htake, List.take_append_drop]
    · obtain hc | hc := List.mem_append.1 hc
      · exact .inr (hwhole c hc)
      · exact of_mem_commaGroups hgroups (hlead ▸ List.mem_append_left _ hc)
  · cases hfalse

/-! ## Numbers in front of a blank -/

theorem isDecimalDigit_of_unsigned {c : Char} (hc : c.isDigit ∨ c = ',' ∨ c = '.') :
    Unicode.isDecimalDigit c ↔ c.isDigit := by
  obtain hc | rfl | rfl := hc
  · exact ⟨fun _ => hc, fun _ => isDecimalDigit_of_isDigit hc⟩
  · decide
  · decide

theorem dateLength?_of_unsigned (hchars : ∀ c ∈ cs, c.isDigit ∨ c = ',' ∨ c = '.')
    (more : List Char) : dateLength? (cs ++ ' ' :: more) = none := by
  rw [dateLength?_before endsNumeral_blank, dateLength?_eq_none]
  intro c hc
  rw [Bool.eq_false_iff]
  intro hsign
  obtain rfl | rfl : c = '-' ∨ c = '/' := by simpa [isDateSeparator] using hsign
  · exact absurd (hchars _ hc) (by decide)
  · exact absurd (hchars _ hc) (by decide)

theorem numberLength_pos {c : Char} (hc : Unicode.isDecimalDigit c) (cs : List Char) :
    ∃ k, (numberLength (c :: cs)).1 = k + 1 ∧ k ≤ cs.length := by
  have hle := numberLength_le (c :: cs)
  have hcount : countWhile Unicode.isDecimalDigit (c :: cs) =
      countWhile Unicode.isDecimalDigit cs + 1 := by
    rw [countWhile, List.takeWhile_cons_of_pos hc]
    rfl
  have hpos : 1 ≤ (numberLength (c :: cs)).1 := by
    simp only [numberLength, hcount]
    generalize (if countWhile Unicode.isDecimalDigit cs + 1 ≤ 3 then
      commaGroups ((c :: cs).drop (countWhile Unicode.isDecimalDigit cs + 1))
      else (0, false)) = groups
    obtain ⟨k, broken⟩ := groups
    cases broken <;> simp only [if_true, Bool.false_eq_true, if_false] <;> omega
  rw [List.length_cons] at hle
  exact ⟨(numberLength (c :: cs)).1 - 1, by omega, by omega⟩

theorem readAs_unsigned (h : IsUnsigned cs) (more : List Char) :
    ReadAs .number (cs.take (numberLength cs).1) (cs.drop (numberLength cs).1 ++ ' ' :: more) := by
  have hdate := dateLength?_of_unsigned h.chars more
  have hnumber := numberLength_before endsNumeral_blank cs more
  obtain ⟨c, rest, rfl, hdigit⟩ := h.begins
  have hdecimal := isDecimalDigit_of_isDigit hdigit
  obtain ⟨k, hk, hle⟩ := numberLength_pos hdecimal rest
  rw [List.cons_append] at hdate hnumber
  refine ⟨c, rest.take k, by rw [hk, List.take_succ_cons], isBlank_of_isDigit hdigit, ?_⟩
  rw [hk, List.drop_succ_cons, ← List.append_assoc, List.take_append_drop,
    lexeme_of_isDecimalDigit hdecimal, hdate, hnumber, hk, List.length_take, min_eq_left hle]
  rfl

theorem readAs_minus_unsigned (h : IsUnsigned cs) (more : List Char) :
    ReadAs (if (numberLength cs).2 then .minus else .number) ('-' :: cs.take (numberLength cs).1)
      (cs.drop (numberLength cs).1 ++ ' ' :: more) := by
  have hnumber := numberLength_before endsNumeral_blank cs more
  have hle := numberLength_le cs
  obtain ⟨c, rest, rfl, hdigit⟩ := h.begins
  have hdecimal := isDecimalDigit_of_isDigit hdigit
  have hminus : Unicode.isDecimalDigit '-' = false := rfl
  refine ⟨'-', _, rfl, rfl, ?_⟩
  rw [← List.append_assoc, List.take_append_drop, List.length_take, min_eq_left hle]
  rw [List.cons_append] at hnumber ⊢
  simp [lexeme, hminus, hdecimal, hnumber]

/-- What is left of a number is read as another number, a comma or an error. -/
theorem kind_of_rest (hne : rest ≠ []) (hchars : ∀ c ∈ rest, c.isDigit ∨ c = ',' ∨ c = '.')
    (pos : Cursor) (more : List Char) :
    ∃ t ts, scanFrom pos (rest ++ ' ' :: more) = t :: ts ∧
      (t.kind = .number ∧ (∀ c ∈ rest.head?, c.isDigit) ∨ t.kind ∈ [Kind.comma, .error]) := by
  obtain ⟨c, tail, rfl⟩ := List.exists_cons_of_ne_nil hne
  have hdate := dateLength?_of_unsigned hchars more
  rw [List.cons_append] at hdate ⊢
  obtain ⟨kind, n, hlexeme, hkind, hblank⟩ : ∃ kind n, lexeme c (tail ++ ' ' :: more) = (kind, n) ∧
      (kind = .number ∧ c.isDigit ∨ kind ∈ [Kind.comma, .error]) ∧ isBlank c = false := by
    obtain hc | rfl | rfl := hchars c List.mem_cons_self
    · have hlexeme := lexeme_of_isDecimalDigit (isDecimalDigit_of_isDigit hc) (tail ++ ' ' :: more)
      rw [hdate] at hlexeme
      exact ⟨.number, _, hlexeme, .inl ⟨rfl, hc⟩, isBlank_of_isDigit hc⟩
    · exact ⟨.comma, 0, by simp [lexeme, not_isDecimalDigit_comma], .inr (by simp), rfl⟩
    · have hpoint : Unicode.isDecimalDigit '.' = false := rfl
      exact ⟨.error, 0, by simp [lexeme, hpoint], .inr (by simp), rfl⟩
  have hdrop : (c :: (tail ++ ' ' :: more)).dropWhile isBlank = c :: (tail ++ ' ' :: more) := by
    rw [List.dropWhile_cons_of_neg (by simp [hblank])]
  have htake : (c :: (tail ++ ' ' :: more)).takeWhile isBlank = [] := by
    rw [List.takeWhile_cons_of_neg (by simp [hblank])]
  rw [scanFrom_eq hdrop hlexeme, htake]
  have hlead : lead pos [] kind = [] := by simp [lead]
  simp only [hlead, List.nil_append]
  refine ⟨_, _, rfl, ?_⟩
  obtain ⟨hkind, hc⟩ | hkind := hkind
  · exact .inl ⟨hkind, by rintro _ ⟨⟩; exact hc⟩
  · exact .inr hkind

end Token

/-! ## Misgrouped numbers -/

section Misgrouped

variable {cs lead rest digits : List Char}

/-- One or two digits with no other digit after them do not begin with three. -/
theorem not_beginsGroup (hchars : ∀ c ∈ digits ++ rest, c.isDigit ∨ c = ',' ∨ c = '.')
    (hlength : digits.length ≤ 2) (hrest : ∀ d ∈ rest.head?, ¬d.isDigit) :
    ¬BeginsGroup (digits ++ rest) := by
  rintro ⟨a, b, c, tail, heq, hall⟩
  have hdigit : ∀ d ∈ [a, b, c], d.isDigit := by
    intro d hd
    refine (isDecimalDigit_of_unsigned (hchars d ?_)).1 (List.all_eq_true.1 hall d hd)
    rw [heq]
    simp only [List.mem_cons, List.not_mem_nil, or_false] at hd ⊢
    tauto
  obtain _ | ⟨x, _ | ⟨y, _ | ⟨z, digits⟩⟩⟩ := digits
  · rw [List.nil_append] at heq
    exact hrest a (by rw [heq]; rfl) (hdigit a (by simp))
  · have htail : rest = b :: c :: tail := (List.cons.inj heq).2
    exact hrest b (by rw [htail]; rfl) (hdigit b (by simp))
  · have htail : rest = c :: tail := (List.cons.inj (List.cons.inj heq).2).2
    exact hrest c (by rw [htail]; rfl) (hdigit c (by simp))
  · simp at hlength

/-- A number without a sign is not misgrouped. -/
theorem IsUnsigned.not_isMisgrouped (h : IsUnsigned cs) : ¬IsMisgrouped cs := by
  rintro ⟨lead, digits, rest, rfl, -⟩
  obtain ⟨c, tail, heq, hc⟩ := h.begins
  obtain ⟨rfl, -⟩ := List.cons.inj heq
  exact absurd hc (by decide)

/-- A negative number that is read to its end is not misgrouped. -/
theorem not_isMisgrouped_of_whole (h : IsUnsigned cs)
    (hwhole : numberLength cs = (cs.length, false)) : ¬IsMisgrouped ('-' :: cs) := by
  rintro ⟨lead, digits, rest, heq, -, -, -, hlength, hrest⟩
  obtain ⟨-, rfl⟩ := List.cons.inj heq
  obtain hgroup | ⟨hfalse, -⟩ := comma_of_numberLength hwhole (by rw [List.take_length])
  · refine not_beginsGroup (fun c hc => h.chars c ?_) hlength hrest hgroup
    exact List.mem_append_right _ (List.mem_cons_of_mem _ hc)
  · cases hfalse

/-- A negative number is misgrouped by a comma in front of less than three digits. -/
theorem isMisgrouped_of_not_beginsGroup (hlead : ∃ d ∈ lead, d.isDigit ∧ d ≠ '0')
    (hrest : IsUnsigned rest) (hgroup : ¬BeginsGroup rest) :
    IsMisgrouped ('-' :: (lead ++ ',' :: rest)) := by
  have hsplit : rest.takeWhile Char.isDigit ++ rest.dropWhile Char.isDigit = rest :=
    List.takeWhile_append_dropWhile
  have hdigits : ∀ d ∈ rest.takeWhile Char.isDigit, d.isDigit := fun d => List.mem_takeWhile_imp
  refine ⟨lead, _, _, by rw [hsplit], hlead, hdigits, ?_, ?_, fun d hd => ?_⟩
  · obtain ⟨c, tail, rfl, hc⟩ := hrest.begins
    rw [List.takeWhile_cons_of_pos hc]
    simp
  · by_contra hlong
    generalize rest.takeWhile Char.isDigit = digits at hsplit hdigits hlong
    obtain _ | ⟨a, _ | ⟨b, _ | ⟨c, digits⟩⟩⟩ := digits
    · simp at hlong
    · simp at hlong
    · simp at hlong
    · refine hgroup ⟨a, b, c, _, hsplit.symm, List.all_eq_true.2 fun d hd => ?_⟩
      refine isDecimalDigit_of_isDigit (hdigits d ?_)
      simp only [List.mem_cons, List.not_mem_nil, or_false] at hd ⊢
      tauto
  · have hnot := List.head?_dropWhile_not Char.isDigit rest
    rw [Option.mem_def.1 hd] at hnot
    simpa using hnot

/-- A negative number that is read up to a comma, and then from there to its end, is misgrouped if
something is in front of the comma. -/
theorem isMisgrouped_iff_of_broken (h : IsUnsigned (lead ++ ',' :: rest))
    (hbegins : IsUnsigned rest)
    (hbroken : numberLength (lead ++ ',' :: rest) = (lead.length + 1, true))
    (hgroup : ¬BeginsGroup rest) {broken : Bool}
    (hwhole : numberLength rest = (rest.length, broken)) :
    IsMisgrouped ('-' :: (lead ++ ',' :: rest)) ↔ ∃ d ∈ lead, d.isDigit ∧ d ≠ '0' := by
  refine ⟨?_, fun hlead => isMisgrouped_of_not_beginsGroup hlead hbegins hgroup⟩
  rintro ⟨lead', digits, rest', heq, hlead, -, hpos, hlength, hrest⟩
  obtain ⟨-, heq⟩ := List.cons.inj heq
  have hno : ¬BeginsGroup (digits ++ rest') := by
    refine not_beginsGroup (fun c hc => h.chars c ?_) hlength hrest
    rw [heq]
    exact List.mem_append_right _ (List.mem_cons_of_mem _ hc)
  obtain ⟨zs, rfl, hzs⟩ | ⟨zs, rfl, hzs⟩ := List.append_eq_append_iff.1 heq
  · cases zs with
    | nil => simpa using hlead
    | cons z zs =>
      -- The comma is one behind which the rest is read.
      obtain ⟨rfl, hrest'⟩ := List.cons.inj hzs
      obtain hgroup | ⟨-, hnil⟩ :=
        comma_of_numberLength hwhole ((List.take_length).trans hrest')
      · exact absurd hgroup hno
      · rw [List.append_eq_nil_iff] at hnil
        rw [hnil.1] at hpos
        simp at hpos
  · cases zs with
    | nil => simpa using hlead
    | cons z zs =>
      -- The comma is one between groups.
      obtain ⟨rfl, hrest'⟩ := List.cons.inj hzs
      have hrest' : digits ++ rest' = zs ++ ',' :: rest := hrest'
      have htake : (lead' ++ ',' :: zs ++ ',' :: rest).take
          ((lead' ++ ',' :: zs).length + 1) = lead' ++ ',' :: (zs ++ [',']) := by
        rw [List.take_length_add_append]
        simp
      obtain ⟨a, b, c, tail, hcons, hall⟩ | ⟨-, hnil⟩ := comma_of_numberLength hbroken htake
      · refine absurd ⟨a, b, c, tail ++ rest, ?_, hall⟩ hno
        rw [hrest', ← List.singleton_append, ← List.append_assoc, hcons]
        rfl
      · simp at hnil

end Misgrouped

end DoubleEntry
