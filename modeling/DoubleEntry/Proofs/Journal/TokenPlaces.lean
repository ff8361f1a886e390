import DoubleEntry.Proofs.Journal.Scan
import Mathlib.Data.List.TakeWhile

/-!
# Where tokens stand

A token is a piece of the text, on the line that it records. Only text that is no token, and a line
break itself, can end with a line feed.

* `lexeme_le`: a token ends where the text does, or before.
* `getLast?_lexeme`: a token that is none of these two does not end with a line feed.
* `exists_piece`: the piece of text that a token is.
-/

namespace DoubleEntry.Token

variable {pos : Cursor} {cs rest : List Char} {c : Char} {t : Token}

/-! ## Lengths -/

theorem dateLength?_le {n : Nat} (h : dateLength? cs = some n) : n ≤ cs.length := by
  rw [dateLength?_eq] at h
  split at h
  · cases h
  · obtain ⟨month, hmonth, h⟩ := Option.bind_eq_some_iff.1 h
    obtain ⟨day, hday, h⟩ := Option.bind_eq_some_iff.1 h
    have hm := lt_of_separated? hmonth
    have hd := lt_of_separated? hday
    rw [List.length_drop] at hm hd
    obtain rfl := Option.some.inj h
    omega

theorem fractionLength_le (cs : List Char) : fractionLength cs ≤ cs.length := by
  unfold fractionLength
  split
  · rename_i rest
    have hdigits := countWhile_le Unicode.isDecimalDigit rest
    rw [List.length_cons]
    omega
  · exact Nat.zero_le _

theorem numberLength_le (cs : List Char) : (numberLength cs).1 ≤ cs.length := by
  have hdigits := countWhile_le Unicode.isDecimalDigit cs
  simp only [numberLength]
  generalize countWhile Unicode.isDecimalDigit cs = digits at hdigits
  have hgroups : (if digits ≤ 3 then commaGroups (cs.drop digits) else (0, false)).1 ≤
      cs.length - digits := by
    split
    · exact List.length_drop ▸ commaGroups_le _
    · exact Nat.zero_le _
  generalize (if digits ≤ 3 then commaGroups (cs.drop digits) else (0, false)) = groups at hgroups
  have hfraction := fractionLength_le (cs.drop (digits + groups.1))
  rw [List.length_drop] at hfraction
  split <;> simp only <;> omega

theorem accountRest_le (cs : List Char) : accountRest cs ≤ cs.length := by
  induction cs using accountRest.induct with
  | case1 => simp [accountRest]
  | case2 c rest h ih =>
    rw [accountRest, if_pos h, List.length_cons, List.length_cons]
    omega
  | case3 c rest h => simp [accountRest, h]
  | case4 c rest hcolon h ih =>
    rw [accountRest, if_pos h, List.length_cons]
    · omega
    · exact hcolon
  | case5 c rest hcolon h =>
    rw [accountRest, if_neg h]
    · exact Nat.zero_le _
    · exact hcolon

theorem accountLength?_le {n : Nat} (h : accountLength? cs = some n) : n ≤ cs.length := by
  obtain ⟨root, hroot, h⟩ := Option.bind_eq_some_iff.1 h
  split at h
  · rename_i c rest hdrop
    split at h
    · have hlen := congrArg List.length hdrop
      have hrest := accountRest_le rest
      rw [List.length_drop, List.length_cons, List.length_cons] at hlen
      obtain rfl := Option.some.inj h
      omega
    · cases h
  · cases h

theorem stringRest_le (cs : List Char) : (stringRest cs).2 ≤ cs.length := by
  induction cs using stringRest.induct with
  | case5 c rest hc kind n hrest ih =>
    rw [hrest] at ih
    simp only [stringRest, hc, if_false, hrest, List.length_cons]
    omega
  | case6 c rest hquote hlast hescape kind n hrest ih =>
    rw [stringRest_cons hquote (ne_backslash hlast hescape), List.length_cons]
    omega
  | _ => simp [stringRest]

/-- A token does not go on past the end of the text. -/
theorem lexeme_le (c : Char) (cs : List Char) : (lexeme c cs).2 ≤ cs.length := by
  unfold lexeme
  split
  · split
    · rename_i n hdate
      have hle := dateLength?_le hdate
      rw [List.length_cons] at hle
      simp only
      omega
    · have hle := numberLength_le (c :: cs)
      rw [List.length_cons] at hle
      simp only
      omega
  split
  · split
    · rename_i n haccount
      have hle := accountLength?_le haccount
      rw [List.length_cons] at hle
      simp only
      omega
    · exact countWhile_le _ _
  split
  · simp only
    split
    · rename_i rest hdrop
      have hlen := congrArg List.length hdrop
      rw [List.length_drop, List.length_cons] at hlen
      simp only
      omega
    · exact countWhile_le _ _
  · split
    case h_1 =>
      split
      · exact numberLength_le _
      · exact Nat.zero_le _
    case h_3 => exact stringRest_le _
    case h_6 => exact countWhile_le _ _
    case h_4 | h_5 =>
      have htag := countWhile_le inTag cs
      split
      · exact Nat.zero_le _
      · exact htag
    -- The other signs are one or two characters long.
    all_goals first
      | exact Nat.zero_le _
      | exact Nat.succ_le_succ (Nat.zero_le _)

/-! ## Last characters -/

theorem stringRest_kind (cs : List Char) :
    (stringRest cs).1 = .error ∨ (stringRest cs).1 = .string := by
  induction cs using stringRest.induct with
  | case5 c rest hc kind n hrest ih => simpa only [stringRest, hc, if_false] using ih
  | case6 c rest hquote hlast hescape kind n hrest ih =>
    rw [stringRest_cons hquote (ne_backslash hlast hescape)]
    exact ih
  | _ => simp [stringRest]

/-- A string ends with its closing quote. -/
theorem getLast?_stringRest (h : (stringRest cs).1 = .string) :
    (cs.take (stringRest cs).2).getLast? = some '"' := by
  have hcons (d : Char) {l : List Char} (hl : l.getLast? = some '"') :
      (d :: l).getLast? = some '"' := by
    rw [List.getLast?_cons_of_ne_nil, hl]
    rintro rfl
    cases hl
  induction cs using stringRest.induct with
  | case2 tail => simp [stringRest]
  | case5 c rest hc kind n hrest ih =>
    simp only [stringRest, hc, if_false] at h ⊢
    simp only [List.take_succ_cons]
    exact hcons _ (hcons _ (ih h))
  | case6 c rest hquote hlast hescape kind n hrest ih =>
    rw [stringRest_cons hquote (ne_backslash hlast hescape)] at h ⊢
    exact hcons _ (ih h)
  | _ => simp [stringRest] at h

/-- Apart from strings and line breaks, a token holds no line feed after its first character. -/
theorem not_mem_take_lexeme (hquote : c ≠ '"') (hreturn : c ≠ '\r') :
    '\n' ∉ cs.take (lexeme c cs).2 := by
  intro h
  obtain ⟨before, after, htake⟩ := List.append_of_mem h
  have hcs : cs = before ++ '\n' :: (after ++ cs.drop (lexeme c cs).2) := by
    rw [← List.cons_append, ← List.append_assoc, ← htake, List.take_append_drop]
  have hlexeme : lexeme c cs = lexeme c before :=
    (congrArg (lexeme c) hcs).trans (lexeme_lineEnd (.inl rfl) hquote hreturn _ _)
  have hle := lexeme_le c before
  have hlen := List.length_take_le (lexeme c cs).2 cs
  rw [htake, List.length_append, List.length_cons, hlexeme] at hlen
  omega

/-- Only text that is no token, and a line break itself, can end with a line feed. -/
theorem getLast?_lexeme {kind : Kind} {n : Nat} (h : lexeme c cs = (kind, n))
    (hnewline : kind ≠ .newline) (herror : kind ≠ .error) :
    (c :: cs.take n).getLast? ≠ some '\n' := by
  by_cases hquote : c = '"'
  · subst hquote
    rw [lexeme_quote] at h
    have hstring : (stringRest cs).1 = .string :=
      (stringRest_kind cs).resolve_left fun he => herror (by rw [← he, h])
    have hlast := getLast?_stringRest hstring
    rw [h] at hlast
    rw [List.getLast?_cons, hlast]
    decide
  by_cases hreturn : c = '\r'
  · subst hreturn
    rw [lexeme_return] at h
    split at h <;> cases h <;> contradiction
  · have hfeed : c ≠ '\n' := by
      rintro rfl
      simp only [lexeme, isDecimalDigit_lineFeed] at h
      cases h
      exact hnewline rfl
    have hrest : '\n' ∉ cs.take (lexeme c cs).2 := not_mem_take_lexeme hquote hreturn
    rw [h] at hrest
    intro hlast
    rcases List.mem_cons.1 (List.mem_of_getLast? hlast) with heq | hin
    · exact hfeed heq.symm
    · exact hrest hin

/-! ## Pieces -/

/-- A token is a piece of the text. -/
theorem exists_piece (ht : t ∈ scanFrom pos cs) :
    ∃ before piece after fresh, cs = before ++ (piece ++ after) ∧ piece ≠ [] ∧
      t = (pos.advance before fresh).token t.kind piece ∧
      (t.kind ≠ .newline → t.kind ≠ .error → piece.getLast? ≠ some '\n') := by
  obtain ⟨before, after, fresh, rfl, hfinds⟩ := exists_finds ht
  cases hfinds with
  | @indent blanks more hne hblank =>
    refine ⟨before, blanks, more, fresh, rfl, hne, rfl, fun _ _ hlast => ?_⟩
    exact absurd (hblank _ (List.mem_of_getLast? hlast)) (by decide)
  | @lexeme c rest kind n hlexeme =>
    refine ⟨before, c :: rest.take n, rest.drop n, fresh, ?_, List.cons_ne_nil _ _, rfl,
      getLast?_lexeme hlexeme⟩
    rw [List.cons_append, List.take_append_drop]

end DoubleEntry.Token
