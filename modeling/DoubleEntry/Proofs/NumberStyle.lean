import DoubleEntry.NumberStyle
import DoubleEntry.Proofs.Decimal.Rounding
import DoubleEntry.Proofs.Decimal.Text

/-!
# The text of a shown number

A number is shown with as many places as are usual in its currency, and its digits in groups of
three if commas are wanted.

* `NumberStyle.isRoundedTo_atPrecision`: how a number is rounded for a currency.
* `NumberStyle.exists_groupDigits`: the commas are between groups of three digits.
* `NumberStyle.exists_insertCommas`: the text of a number with commas and without.
* `NumberStyle.filter_format`: without its commas a number's text is that of the rounded number.
-/

namespace DoubleEntry.NumberStyle

/-! ## Rounding -/

section Rounding

variable {style : NumberStyle} {n : Decimal} {currency : Currency} {places : Nat}

theorem isRoundedTo_atPrecision (h : style.precision? currency = some places) :
    IsRoundedTo places n.value (style.atPrecision n currency).value := by
  rw [atPrecision, h]
  simp only [Decimal.value_padToPlaces]
  exact n.isRoundedTo_roundToPlaces places

/-- A number that has no more places than are shown is shown as it is. -/
theorem value_atPrecision (h : ∀ places ∈ style.precision? currency, n.scale ≤ places) :
    (style.atPrecision n currency).value = n.value := by
  cases hplaces : style.precision? currency with
  | none => rw [atPrecision, hplaces]
  | some places =>
    exact (isRoundedTo_atPrecision hplaces).unique (Decimal.isRoundedTo_value (h places hplaces))

end Rounding

/-! ## Groups of digits -/

variable {cs : List Char}

theorem groupDigits_cons (c : Char) (cs : List Char) :
    groupDigits (c :: cs) =
      if cs.length % 3 = 0 ∧ cs ≠ [] then c :: ',' :: groupDigits cs else c :: groupDigits cs := rfl

theorem length_flatten_groups {groups : List (List Char)} (h : ∀ g ∈ groups, g.length = 3) :
    groups.flatten.length = 3 * groups.length := by
  induction groups with
  | nil => rfl
  | cons g groups ih =>
    obtain ⟨hg, hgroups⟩ := List.forall_mem_cons.1 h
    rw [List.flatten_cons, List.length_append, hg, ih hgroups, List.length_cons]
    omega

/-- The commas are in front of groups of three digits. One to three digits are left in front. -/
theorem exists_groupDigits (h : cs ≠ []) :
    ∃ (first : List Char) (groups : List (List Char)),
      groupDigits cs = first ++ groups.flatMap (',' :: ·) ∧ cs = first ++ groups.flatten ∧
      first ≠ [] ∧ first.length ≤ 3 ∧ ∀ g ∈ groups, g.length = 3 := by
  induction cs with
  | nil => exact absurd rfl h
  | cons c cs ih =>
    rw [groupDigits_cons]
    cases cs with
    | nil => exact ⟨[c], [], rfl, rfl, by simp, by simp, by simp⟩
    | cons d cs =>
      obtain ⟨first, groups, hgrouped, hcs, hne, hshort, hgroups⟩ := ih (List.cons_ne_nil d cs)
      have hlength : (d :: cs).length = first.length + 3 * groups.length := by
        rw [hcs, List.length_append, length_flatten_groups hgroups]
      have hpos : 0 < first.length := List.length_pos_iff.2 hne
      rw [hgrouped]
      split
      · next hfull =>
        have hthree : first.length = 3 := by omega
        refine ⟨[c], first :: groups, rfl, ?_, by simp, by simp,
          List.forall_mem_cons.2 ⟨hthree, hgroups⟩⟩
        rw [hcs]
        rfl
      · next hopen =>
        have htwo : first.length ≤ 2 := by
          by_contra hlong
          exact hopen ⟨by omega, List.cons_ne_nil d cs⟩
        exact ⟨c :: first, groups, rfl, by rw [hcs]; rfl, by simp,
          Nat.succ_le_succ htwo, hgroups⟩

/-- A text with the commas of a number: a minus sign or none, up to three digits, groups of three
digits, each with a comma in front, and a fraction or none. -/
def IsGrouped (cs : List Char) : Prop :=
  ∃ sign first groups fraction, cs = sign ++ numeral first groups fraction ∧
    (sign = [] ∨ sign = ['-']) ∧ first.length ≤ 3 ∧ NumeralParts first groups fraction

/-- Commas are added to the digits in front of the point. -/
theorem insertCommas_numeral {whole fraction : List Char} (h : NumeralParts whole [] fraction)
    (negative : Bool) :
    insertCommas ((if negative then ['-'] else []) ++ numeral whole [] fraction) =
      (if negative then ['-'] else []) ++ (groupDigits whole ++ fraction) := by
  have hwhole : ∀ c ∈ whole, decide (c ≠ '.') := by
    intro c hc
    refine decide_eq_true ?_
    rintro rfl
    exact absurd (h.digits '.' hc) (by decide)
  have hfraction : fraction.takeWhile (· ≠ '.') = [] ∧ fraction.dropWhile (· ≠ '.') = fraction := by
    obtain rfl | ⟨places, rfl, -⟩ := h.fraction
    · exact ⟨rfl, rfl⟩
    · exact ⟨rfl, rfl⟩
  have htake : (numeral whole [] fraction).takeWhile (· ≠ '.') = whole := by
    show (whole ++ fraction).takeWhile (· ≠ '.') = whole
    rw [List.takeWhile_append_of_pos hwhole, hfraction.1, List.append_nil]
  have hdrop : (numeral whole [] fraction).dropWhile (· ≠ '.') = fraction :=
    (List.dropWhile_append_of_pos hwhole).trans hfraction.2
  cases negative with
  | true =>
    show ['-'] ++ groupDigits ((numeral whole [] fraction).takeWhile (· ≠ '.')) ++
      (numeral whole [] fraction).dropWhile (· ≠ '.') = _
    rw [htake, hdrop]
    rfl
  | false =>
    rw [if_neg Bool.false_ne_true, List.nil_append, List.nil_append, insertCommas]
    · simp only [htake, hdrop, List.nil_append]
    · intro rest hrest
      obtain ⟨d, tail, rfl⟩ := List.exists_cons_of_ne_nil h.ne_nil
      obtain ⟨rfl, -⟩ := List.cons.inj hrest
      exact absurd (h.digits '-' List.mem_cons_self) (by decide)

/-- The text of a number with commas and without. -/
theorem exists_insertCommas (n : Decimal) :
    ∃ first groups fraction, NumeralParts first groups fraction ∧ first.length ≤ 3 ∧
      n.toChars = (if n.negative then ['-'] else []) ++
        numeral (first ++ groups.flatten) [] fraction ∧
      insertCommas n.toChars = (if n.negative then ['-'] else []) ++
        numeral first groups fraction := by
  obtain ⟨whole, fraction, hmagnitude, hparts⟩ := n.exists_numeral
  obtain ⟨first, groups, hgrouped, rfl, hne, hshort, hgroups⟩ := exists_groupDigits hparts.ne_nil
  have hdigits := hparts.digits
  refine ⟨first, groups, fraction, ⟨hne, fun c hc => hdigits c (List.mem_append_left _ hc),
    fun _ => hshort, fun g hg => ⟨hgroups g hg, fun c hc => ?_⟩, hparts.fraction⟩, hshort, ?_, ?_⟩
  · exact hdigits c (List.mem_append_right _ (List.mem_flatten_of_mem hg hc))
  · rw [Decimal.toChars_eq, hmagnitude]
  · rw [Decimal.toChars_eq, hmagnitude, insertCommas_numeral hparts, hgrouped, numeral,
      List.append_assoc first]

theorem filter_insertCommas (n : Decimal) :
    (insertCommas n.toChars).filter (· ≠ ',') = n.toChars := by
  obtain ⟨first, groups, fraction, hparts, -, hplain, hgrouped⟩ := exists_insertCommas n
  have hsign : (if n.negative then ['-'] else []).filter (· ≠ ',') =
      if n.negative then ['-'] else [] := by
    cases n.negative <;> rfl
  rw [hgrouped, List.filter_append, hparts.filter_commas, hsign, ← hplain]

theorem isGrouped_insertCommas (n : Decimal) : IsGrouped (insertCommas n.toChars) := by
  obtain ⟨first, groups, fraction, hparts, hshort, -, hgrouped⟩ := exists_insertCommas n
  refine ⟨_, first, groups, fraction, hgrouped, ?_, hshort, hparts⟩
  cases n.negative
  · exact .inl rfl
  · exact .inr rfl

/-! ## Texts -/

theorem toList_format (style : NumberStyle) (n : Decimal) (currency : Currency) :
    (style.format n currency).toList =
      if style.commas then insertCommas (style.atPrecision n currency).toChars
      else (style.atPrecision n currency).toChars := by
  unfold format
  cases style.commas <;> simp [Decimal.text]

theorem filter_format (style : NumberStyle) (n : Decimal) (currency : Currency) :
    (style.format n currency).toList.filter (· ≠ ',') =
      (style.atPrecision n currency).toChars := by
  rw [toList_format]
  split
  · exact filter_insertCommas _
  · exact Decimal.filter_toChars _

end DoubleEntry.NumberStyle
