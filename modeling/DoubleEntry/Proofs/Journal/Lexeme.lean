import DoubleEntry.Token.Lexer
import Mathlib.Data.List.Find

/-!
# Where a token ends

No token but a string reads past the end of its line: a line feed or a carriage return stops it like
the end of the text does. A string stops at its closing quote, whatever follows.

* `lexeme_lineEnd`: a token before the end of a line is as it is at the end of the text.
* `lexeme_append`, `lexeme_cut`: text after a line feed that a token leaves unread does not change
  the token.
* `eq_of_lexeme_newline`: the texts of line breaks.
-/

namespace DoubleEntry.Token

variable {cs more : List Char} {c e : Char}

/-! ## The end of a line is like the end -/

/-- The characters with which a line can end. -/
def IsLineEnd (c : Char) : Prop := c = '\n' ∨ c = '\r'

theorem countWhile_le (p : Char → Bool) (cs : List Char) : countWhile p cs ≤ cs.length :=
  (List.takeWhile_prefix p).length_le

/-- Counting stops at a character that does not count, whatever comes after it. -/
theorem countWhile_of_not {p : Char → Bool} (h : p e = false) (cs more : List Char) :
    countWhile p (cs ++ e :: more) = countWhile p cs := by
  simp only [countWhile, List.takeWhile_append, List.takeWhile_cons, h]
  split <;> simp_all

theorem isDecimalDigit_lineFeed : Unicode.isDecimalDigit '\n' = false := rfl

theorem isDecimalDigit_lineEnd (he : IsLineEnd e) : Unicode.isDecimalDigit e = false := by
  rcases he with rfl | rfl
  · exact isDecimalDigit_lineFeed
  · rfl

theorem startsComponent_lineEnd (he : IsLineEnd e) : startsComponent e = false := by
  rcases he with rfl | rfl <;> rfl

theorem inComponent_lineEnd (he : IsLineEnd e) : inComponent e = false := by
  rcases he with rfl | rfl <;> rfl

theorem inCapitalWord_lineEnd (he : IsLineEnd e) : inCapitalWord e = false := by
  rcases he with rfl | rfl <;> decide

theorem inSmallWord_lineEnd (he : IsLineEnd e) : inSmallWord e = false := by
  rcases he with rfl | rfl <;> decide

theorem inTag_lineEnd (he : IsLineEnd e) : inTag e = false := by
  rcases he with rfl | rfl <;> decide

/-- A character that is no part of a number or a date, so one ends in front of it. -/
structure EndsNumeral (e : Char) : Prop where
  digit : Unicode.isDecimalDigit e = false
  comma : e ≠ ','
  point : e ≠ '.'
  separator : isDateSeparator e = false

/-- At the end of a line, a day or a number ends. -/
theorem IsLineEnd.endsNumeral (he : IsLineEnd e) : EndsNumeral e := by
  rcases he with rfl | rfl <;> exact ⟨rfl, by decide, by decide, by decide⟩

theorem endsNumeral_blank : EndsNumeral ' ' := ⟨rfl, by decide, by decide, by decide⟩

/-- A month or a day is the same with more behind what ends it. -/
theorem twoDigits?_before (he : EndsNumeral e) (cs more : List Char) :
    twoDigits? (cs ++ e :: more) = twoDigits? cs := by
  simp only [twoDigits?, countWhile_of_not (he.digit)]

theorem le_of_twoDigits? {n : Nat} (h : twoDigits? cs = some n) : n ≤ cs.length := by
  have hle := countWhile_le Unicode.isDecimalDigit cs
  unfold twoDigits? at h
  split at h
  · cases h
  · cases h
    omega

/-- The length of a later part of a date, without the separator in front of it. -/
def separated? : List Char → Option Nat
  | c :: rest => if isDateSeparator c then twoDigits? rest else none
  | [] => none

theorem separated?_before (he : EndsNumeral e) (cs more : List Char) :
    separated? (cs ++ e :: more) = separated? cs := by
  cases cs with
  | nil => exact if_neg (by rw [he.separator]; exact Bool.false_ne_true)
  | cons c cs => simp only [List.cons_append, separated?, twoDigits?_before he]

theorem lt_of_separated? {n : Nat} (h : separated? cs = some n) : n < cs.length := by
  cases cs with
  | nil => cases h
  | cons c cs =>
    rw [separated?, Option.ite_none_right_eq_some] at h
    exact Nat.lt_succ_of_le (le_of_twoDigits? h.2)

theorem dateLength?_eq (cs : List Char) :
    dateLength? cs =
      if (cs.take 4).countP Unicode.isDecimalDigit ≠ 4 then none
      else (separated? (cs.drop 4)).bind fun month =>
        (separated? (cs.drop (4 + 1 + month))).bind fun day => some (4 + 1 + month + 1 + day) :=
  rfl

theorem countP_take_before (he : EndsNumeral e) (n : Nat) (cs more : List Char) :
    ((cs ++ e :: more).take n).countP Unicode.isDecimalDigit = n ↔
      (cs.take n).countP Unicode.isDecimalDigit = n := by
  by_cases h : n ≤ cs.length
  · rw [List.take_append_of_le_length h]
  · -- What ends the number is among the first `n` characters, and it is no digit.
    obtain ⟨k, rfl⟩ := Nat.exists_eq_add_of_lt (Nat.lt_of_not_le h)
    have hcs : cs.countP Unicode.isDecimalDigit ≤ cs.length := List.countP_le_length
    have hmore : (more.take k).countP Unicode.isDecimalDigit ≤ k :=
      Nat.le_trans List.countP_le_length (List.length_take_le k more)
    rw [List.take_append, List.take_of_length_le (by omega), List.countP_append,
      show cs.length + k + 1 - cs.length = k + 1 by omega, List.take_succ_cons,
      List.countP_cons_of_neg (by simp [he.digit])]
    omega

/-- So is a whole date. -/
theorem dateLength?_before (he : EndsNumeral e) (cs more : List Char) :
    dateLength? (cs ++ e :: more) = dateLength? cs := by
  simp only [dateLength?_eq, ne_eq, countP_take_before he]
  split
  · rfl
  · rename_i hdigits
    have hlen : 4 ≤ cs.length := by
      have h1 := List.countP_le_length (p := Unicode.isDecimalDigit) (l := cs.take 4)
      have h2 := List.length_take_le' 4 cs
      omega
    rw [List.drop_append_of_le_length hlen, separated?_before he]
    refine Option.bind_congr fun month hmonth => ?_
    have hlt := lt_of_separated? hmonth
    rw [List.length_drop] at hlt
    rw [List.drop_append_of_le_length (by omega), separated?_before he]

theorem commaGroups_le (cs : List Char) : (commaGroups cs).1 ≤ cs.length := by
  induction cs using commaGroups.induct with
  | case1 a b c rest h n broken hrest ih =>
    rw [commaGroups, if_pos h]
    simp_all
  | case2 a b c rest h =>
    rw [commaGroups, if_neg h]
    simp
  | case3 tail h =>
    rw [commaGroups]
    · simp
    · exact h
  | case4 t h h' =>
    rw [commaGroups]
    · simp
    · exact h
    · exact h'

/-- A comma without three digits after it. -/
theorem commaGroups_broken (h : ∀ a b c rest, cs = a :: b :: c :: rest →
    ¬[a, b, c].all Unicode.isDecimalDigit) : commaGroups (',' :: cs) = (1, true) := by
  match cs, h with
  | [], _ | [_], _ | [_, _], _ => rfl
  | a :: b :: c :: rest, h => rw [commaGroups, if_neg (h a b c rest rfl)]

theorem commaGroups_before (he : EndsNumeral e) (cs more : List Char) :
    commaGroups (cs ++ e :: more) = commaGroups cs := by
  induction cs using commaGroups.induct with
  | case1 a b c rest h n broken hrest ih =>
    simp only [List.cons_append, commaGroups, if_pos h, ih]
  | case2 a b c rest h => simp only [List.cons_append, commaGroups, if_neg h]
  | case3 tail h =>
    -- Fewer than three characters stand between the comma and what ends the number.
    rw [List.cons_append, commaGroups_broken fun a b c rest hrest => absurd hrest (h a b c rest),
      commaGroups_broken]
    intro a b c rest hrest hall
    have hin : e ∈ [a, b, c] := by
      obtain _ | ⟨x, _ | ⟨y, _ | ⟨z, tail⟩⟩⟩ := tail
      · obtain ⟨rfl, -⟩ := List.cons.inj hrest
        simp
      · obtain ⟨-, rfl, -⟩ := by simpa using hrest
        simp
      · obtain ⟨-, -, rfl, -⟩ := by simpa using hrest
        simp
      · exact absurd rfl (h x y z tail)
    have hdigit := List.all_eq_true.1 hall _ hin
    rw [he.digit] at hdigit
    cases hdigit
  | case4 t h h' =>
    cases t with
    | nil =>
      rw [List.nil_append, commaGroups]
      · rfl
      · rintro a b c rest heq
        exact he.comma (List.cons.inj heq).1
      · rintro rest heq
        exact he.comma (List.cons.inj heq).1
    | cons c t =>
      have hc : c ≠ ',' := fun hc => h' t (by rw [hc])
      rw [commaGroups, commaGroups] <;> simp [hc]

theorem fractionLength_before (he : EndsNumeral e) (cs more : List Char) :
    fractionLength (cs ++ e :: more) = fractionLength cs := by
  cases cs with
  | nil =>
    rw [List.nil_append, fractionLength]
    · rfl
    · rintro rest heq
      exact he.point (List.cons.inj heq).1
  | cons c cs =>
    by_cases h : c = '.'
    · subst h
      simp only [List.cons_append, fractionLength, countWhile_of_not (he.digit)]
    · simp [fractionLength, h]

/-- So is a number. -/
theorem numberLength_before (he : EndsNumeral e) (cs more : List Char) :
    numberLength (cs ++ e :: more) = numberLength cs := by
  have hdigits := countWhile_le Unicode.isDecimalDigit cs
  have hgroups := commaGroups_le (cs.drop (countWhile Unicode.isDecimalDigit cs))
  rw [List.length_drop] at hgroups
  simp only [numberLength, countWhile_of_not (he.digit),
    List.drop_append_of_le_length hdigits, commaGroups_before he]
  split
  · rw [List.drop_append_of_le_length (by omega), fractionLength_before he]
  · rw [List.drop_append_of_le_length (by omega), fractionLength_before he]

theorem ne_colon_of_inComponent (h : inComponent c) : c ≠ ':' := by
  rintro rfl
  exact absurd h (by decide)

/-- An account goes on with a character of its component, unless a colon comes. -/
theorem accountRest_cons (hc : c ≠ ':') (cs : List Char) :
    accountRest (c :: cs) = if inComponent c then accountRest cs + 1 else 0 := by
  rw [accountRest]
  exact fun _ _ h => absurd h hc

theorem accountRest_lineEnd (he : IsLineEnd e) (cs more : List Char) :
    accountRest (cs ++ e :: more) = accountRest cs := by
  induction cs using accountRest.induct with
  | case1 =>
    have hcolon : e ≠ ':' := by rcases he with rfl | rfl <;> decide
    simp [accountRest_cons hcolon, accountRest, inComponent_lineEnd he]
  | case2 c rest h ih => simp only [List.cons_append, accountRest, if_pos h, ih]
  | case3 c rest h => simp only [List.cons_append, accountRest, if_neg h]
  | case4 c rest hcolon h ih =>
    have hc := ne_colon_of_inComponent h
    rw [List.cons_append, accountRest_cons hc, accountRest_cons hc, ih]
  | case5 c rest hcolon h =>
    by_cases hc : c = ':'
    · subst hc
      cases rest with
      | nil => simp [accountRest, startsComponent_lineEnd he, h]
      | cons d rest => exact absurd rfl (hcolon d rest rfl)
    · rw [List.cons_append, accountRest_cons hc, accountRest_cons hc, if_neg h, if_neg h]

/-- A word is not found across a character that it does not have. -/
theorem isPrefixOf_of_notMem {word : List Char} (h : e ∉ word) (cs more : List Char) :
    word.isPrefixOf (cs ++ e :: more) = word.isPrefixOf cs := by
  induction word generalizing cs with
  | nil => rfl
  | cons d word ih =>
    rw [List.mem_cons, not_or] at h
    cases cs with
    | nil => simp [List.isPrefixOf, Ne.symm h.1]
    | cons c cs => simp only [List.cons_append, List.isPrefixOf, ih h.2]

theorem notMem_of_mem_accountRoots (he : IsLineEnd e) {root : List Char}
    (h : root ∈ accountRoots) : e ∉ root := by
  rcases he with rfl | rfl
  · exact (by decide : ∀ root ∈ accountRoots, '\n' ∉ root) root h
  · exact (by decide : ∀ root ∈ accountRoots, '\r' ∉ root) root h

/-- An account ends with its line at the latest. -/
theorem accountLength?_lineEnd (he : IsLineEnd e) (cs more : List Char) :
    accountLength? (cs ++ e :: more) = accountLength? cs := by
  have hfind : accountRoots.find? (·.isPrefixOf (cs ++ e :: more)) =
      accountRoots.find? (·.isPrefixOf cs) :=
    List.find?_congr fun root hroot =>
      isPrefixOf_of_notMem (notMem_of_mem_accountRoots he hroot) cs more
  unfold accountLength?
  rw [hfind]
  refine Option.bind_congr fun root hroot => ?_
  have hlen : root.length ≤ cs.length :=
    (List.isPrefixOf_iff_prefix.1 (by simpa using List.find?_some hroot)).length_le
  rw [List.drop_append_of_le_length hlen]
  generalize cs.drop root.length = rest
  obtain _ | ⟨c, _ | ⟨d, rest⟩⟩ := rest
  · rcases he with rfl | rfl <;> rfl
  · by_cases hc : c = ':'
    · simp [hc, startsComponent_lineEnd he]
    · simp [hc]
  · by_cases hc : c = ':'
    · simp only [hc, List.cons_append, accountRest_lineEnd he]
    · simp [hc]

/-- Apart from strings and line breaks, a token before the end of a line is as it is at the end of
the text. -/
theorem lexeme_lineEnd (he : IsLineEnd e) (hquote : c ≠ '"') (hreturn : c ≠ '\r')
    (cs more : List Char) : lexeme c (cs ++ e :: more) = lexeme c cs := by
  have hcapital := countWhile_le inCapitalWord cs
  have hsmall := countWhile_le inSmallWord cs
  unfold lexeme
  split
  · rw [← List.cons_append, dateLength?_before he.endsNumeral, numberLength_before he.endsNumeral]
  split
  · simp only [← List.cons_append, accountLength?_lineEnd he,
      countWhile_of_not (inCapitalWord_lineEnd he),
      List.take_append_of_le_length hcapital]
  split
  · simp only [countWhile_of_not (inSmallWord_lineEnd he),
      List.take_append_of_le_length hsmall, List.drop_append_of_le_length hsmall]
    cases cs.drop (countWhile inSmallWord cs) with
    | nil => rcases he with rfl | rfl <;> rfl
    | cons d rest =>
      by_cases hd : d = ':'
      · simp [hd]
      · simp [hd]
  · have htag := countWhile_of_not (inTag_lineEnd he) cs more
    have hend : (e != '\r' && e != '\n') = false := by rcases he with rfl | rfl <;> rfl
    have hcomment := countWhile_of_not (p := fun d => d != '\r' && d != '\n') hend cs more
    have hnumber := numberLength_before he.endsNumeral cs more
    -- At most one of the characters that follow decides between the signs.
    cases cs with
    | nil =>
      by_cases hminus : c = '-'
      · simp [hminus, isDecimalDigit_lineEnd he]
      · rcases he with rfl | rfl
        · split <;> simp_all
        · split <;> simp_all
    | cons d cs =>
      rw [List.cons_append] at *
      split <;> simp_all

/-- The kinds of tokens that write nothing: line breaks and the blanks at the start of a line. -/
def Kind.IsSpace (kind : Kind) : Prop := kind = .newline ∨ kind = .indent

theorem capitalWordKind_not_isSpace (first : Char) (rest : List Char) :
    ¬(capitalWordKind first rest).IsSpace := by
  simp only [capitalWordKind, Kind.IsSpace]
  repeat' split
  all_goals simp

theorem smallWordKind_not_isSpace (word : List Char) : ¬(smallWordKind word).IsSpace := by
  unfold smallWordKind Kind.IsSpace
  split <;> simp

/-! ## Strings -/

/-- A string goes on with any character but a quote or a backslash. -/
theorem stringRest_cons (hquote : c ≠ '"') (hbackslash : c ≠ '\\') (cs : List Char) :
    stringRest (c :: cs) = ((stringRest cs).1, (stringRest cs).2 + 1) := by
  rw [stringRest] <;> simp_all

/-- A character that is neither the last backslash nor one in front of another character. -/
theorem ne_backslash (hlast : c = '\\' → cs = [] → False)
    (hescape : ∀ d rest, c = '\\' → cs = d :: rest → False) : c ≠ '\\' := fun hc => by
  cases cs with
  | nil => exact hlast hc rfl
  | cons d rest => exact hescape d rest hc rfl

/-- A string, or what is none, with something left that holds a line feed. -/
theorem stringRest_append (h : '\n' ∈ cs.drop (stringRest cs).2) (more : List Char) :
    stringRest (cs ++ more) = stringRest cs := by
  induction cs using stringRest.induct with
  | case1 => simp [stringRest] at h
  | case2 tail => simp [stringRest]
  | case3 => simp [stringRest] at h
  | case4 rest => simp [stringRest]
  | case5 c rest hc kind n hrest ih =>
    simp only [stringRest, hc, if_false, hrest, List.drop_succ_cons, List.cons_append] at h ih ⊢
    rw [ih h]
  | case6 c rest hquote hlast hescape kind n hrest ih =>
    have hc := ne_backslash hlast hescape
    rw [stringRest_cons hquote hc] at h ⊢
    rw [List.cons_append, stringRest_cons hquote hc, ih (by simpa using h)]

/-- The same, where the string is known in front of all the text. -/
theorem stringRest_cut (h : '\n' ∈ cs.drop (stringRest (cs ++ more)).2) :
    stringRest (cs ++ more) = stringRest cs := by
  induction cs using stringRest.induct with
  | case1 => simp at h
  | case2 tail => simp [stringRest]
  | case3 => exact absurd (List.mem_of_mem_drop h) (by decide)
  | case4 rest => simp [stringRest]
  | case5 c rest hc kind n hrest ih =>
    simp only [stringRest, hc, if_false, List.drop_succ_cons, List.cons_append] at h ⊢
    rw [ih h]
  | case6 c rest hquote hlast hescape kind n hrest ih =>
    have hc := ne_backslash hlast hescape
    rw [List.cons_append, stringRest_cons hquote hc] at h ⊢
    rw [stringRest_cons hquote hc, ih (by simpa using h)]

/-- A string is never space, closed or not. -/
theorem stringRest_not_isSpace (cs : List Char) : ¬(stringRest cs).1.IsSpace := by
  induction cs using stringRest.induct with
  | case5 c rest hc kind n hrest ih => simpa only [stringRest, hc, if_false] using ih
  | case6 c rest hquote hlast hescape kind n hrest ih =>
    rw [stringRest_cons]
    · exact ih
    · exact hquote
    · exact ne_backslash hlast hescape
  | _ => simp [stringRest, Kind.IsSpace]

/-! ## Any token -/

theorem lexeme_quote (cs : List Char) : lexeme '"' cs = stringRest cs := by
  simp [lexeme, show Unicode.isDecimalDigit '"' = false from rfl]

/-- A carriage return belongs to a line feed, or it is an error of its own. -/
theorem lexeme_return (cs : List Char) :
    lexeme '\r' cs = if cs.head? = some '\n' then (.newline, 1) else (.error, 0) := by
  cases cs with
  | nil => simp [lexeme, show Unicode.isDecimalDigit '\r' = false from rfl]
  | cons d cs =>
    by_cases hd : d = '\n' <;>
      simp [lexeme, show Unicode.isDecimalDigit '\r' = false from rfl, hd]

/-- A token in front of a line feed, if it is no string. -/
theorem lexeme_append_of_mem (hquote : c ≠ '"') (h : '\n' ∈ cs) (more : List Char) :
    lexeme c (cs ++ more) = lexeme c cs := by
  obtain ⟨before, after, rfl⟩ := List.append_of_mem h
  by_cases hreturn : c = '\r'
  · subst hreturn
    rw [lexeme_return, lexeme_return]
    cases before <;> rfl
  · rw [List.append_assoc, List.cons_append, lexeme_lineEnd (.inl rfl) hquote hreturn,
      lexeme_lineEnd (.inl rfl) hquote hreturn]

/-- Text after a line feed that a token leaves unread does not change the token. -/
theorem lexeme_append (h : '\n' ∈ cs.drop (lexeme c cs).2) (more : List Char) :
    lexeme c (cs ++ more) = lexeme c cs := by
  by_cases hquote : c = '"'
  · subst hquote
    rw [lexeme_quote] at h ⊢
    rw [lexeme_quote, stringRest_append h]
  · exact lexeme_append_of_mem hquote (List.mem_of_mem_drop h) more

/-- Text can be cut after a line feed that a token leaves unread. -/
theorem lexeme_cut (h : '\n' ∈ cs.drop (lexeme c (cs ++ more)).2) :
    lexeme c (cs ++ more) = lexeme c cs := by
  by_cases hquote : c = '"'
  · subst hquote
    rw [lexeme_quote] at h ⊢
    rw [lexeme_quote, stringRest_cut h]
  · exact lexeme_append_of_mem hquote (List.mem_of_mem_drop h) more

/-- A token that writes nothing is a line break, of which there are two forms. -/
theorem eq_of_isSpace {kind : Kind} {n : Nat} (h : lexeme c cs = (kind, n))
    (hspace : kind.IsSpace) :
    kind = .newline ∧ (c = '\n' ∧ n = 0 ∨ c = '\r' ∧ n = 1 ∧ cs.head? = some '\n') := by
  unfold lexeme at h
  split at h
  · split at h <;> cases h <;> cases hspace <;> contradiction
  split at h
  · split at h
    · cases h
      cases hspace <;> contradiction
    · cases h
      exact absurd hspace (capitalWordKind_not_isSpace _ _)
  split at h
  · simp only at h
    split at h
    · cases h
      cases hspace <;> contradiction
    · cases h
      exact absurd hspace (smallWordKind_not_isSpace _)
  · split at h
    case h_1 =>
      split at h
      · cases h
        split at hspace <;> cases hspace <;> contradiction
      · cases h
        cases hspace <;> contradiction
    case h_3 => exact absurd (congrArg Prod.fst h ▸ hspace) (stringRest_not_isSpace cs)
    case h_4 | h_5 => split at h <;> cases h <;> cases hspace <;> contradiction
    case h_7 =>
      cases h
      exact ⟨rfl, .inl ⟨rfl, rfl⟩⟩
    case h_8 =>
      cases h
      exact ⟨rfl, .inr ⟨rfl, rfl, rfl⟩⟩
    all_goals cases h; cases hspace <;> contradiction

/-- The texts of line breaks. -/
theorem eq_of_lexeme_newline {n : Nat} (h : lexeme c cs = (.newline, n)) :
    c = '\n' ∧ n = 0 ∨ c = '\r' ∧ n = 1 ∧ cs.head? = some '\n' :=
  (eq_of_isSpace h (.inl rfl)).2

/-- No lexeme is an indentation: that is told by where it stands on its line. -/
theorem lexeme_ne_indent {kind : Kind} {n : Nat} (h : lexeme c cs = (kind, n)) :
    kind ≠ .indent := by
  rintro rfl
  exact absurd (eq_of_isSpace h (.inr rfl)).1 (by simp)

/-- A line break is one whatever follows. -/
theorem lexeme_newline_append {n : Nat} (h : lexeme c cs = (.newline, n)) (more : List Char) :
    lexeme c (cs ++ more) = (.newline, n) ∧ n ≤ cs.length := by
  obtain ⟨rfl, rfl⟩ | ⟨rfl, rfl, hhead⟩ := eq_of_lexeme_newline h
  · simp [lexeme, isDecimalDigit_lineFeed]
  · obtain ⟨tail, rfl⟩ := List.head?_eq_some_iff.1 hhead
    simp [lexeme_return]

/-- A line break is one with nothing after it. -/
theorem lexeme_newline_take {n : Nat} (h : lexeme c cs = (.newline, n)) :
    lexeme c (cs.take n) = (.newline, n) := by
  obtain ⟨rfl, rfl⟩ | ⟨rfl, rfl, hhead⟩ := eq_of_lexeme_newline h
  · simp [lexeme, isDecimalDigit_lineFeed]
  · obtain ⟨tail, rfl⟩ := List.head?_eq_some_iff.1 hhead
    simp [lexeme_return]

end DoubleEntry.Token
