import DoubleEntry.Proofs.NumberStyle
import DoubleEntry.Proofs.Printed.Reading

/-!
# Formatted numbers

A number that a report shows can be put into a ledger: with or without commas its text is one number
token, from which the number is read as it was rounded.

* `NumberStyle.readAs_format`: the text of a number is read as one token.
* `NumberStyle.format_reads`: what is read from it.
-/

namespace DoubleEntry.NumberStyle

open Token

theorem readAs_format (style : NumberStyle) (n : Decimal) (currency : Currency) :
    ReadAs .number (style.format n currency).toList [] := by
  rw [toList_format]
  split
  · obtain ⟨first, groups, fraction, hparts, -, -, hgrouped⟩ :=
      exists_insertCommas (style.atPrecision n currency)
    rw [hgrouped]
    exact readAs_numeral hparts _ (by rintro c ⟨⟩)
  · exact readAs_number _ (by rintro c ⟨⟩)

/-- With commas or without, the text of a number is one token, and what is read from it is the
number, rounded to the places of its currency. -/
theorem format_reads (style : NumberStyle) (n : Decimal) (currency : Currency) :
    ∃ value : Decimal,
      (∀ commas, ∃ t, scan (({ style with commas } : NumberStyle).format n currency) = [t] ∧
        t.kind = .number ∧ t.text = ({ style with commas } : NumberStyle).format n currency ∧
        Line.numberValue t = pure value) ∧
      (∀ places ∈ style.precision? currency, IsRoundedTo places n.value value.value ∧
        |value.value - n.value| ≤ 1 / 2 / 10 ^ places) ∧
      ((∀ places ∈ style.precision? currency, n.scale ≤ places) → value.value = n.value) ∧
      IsGrouped (({ style with commas := true } : NumberStyle).format n currency).toList ∧
      (({ style with commas := true } : NumberStyle).format n currency).toList.filter (· ≠ ',') =
        (({ style with commas := false } : NumberStyle).format n currency).toList := by
  have hvalue : (style.atPrecision n currency).readBack.value =
      (style.atPrecision n currency).value :=
    Decimal.equals_iff.1 (Decimal.readBack_equals _)
  refine ⟨(style.atPrecision n currency).readBack, fun commas => ?_, fun places hplaces => ?_,
    fun hplaces => ?_, ?_, ?_⟩
  · obtain ⟨t, hscan, hkind, htext⟩ :=
      (readAs_format ({ style with commas } : NumberStyle) n currency).exists_scan
    exact ⟨t, hscan, hkind, htext, Line.numberValue_of_filter (htext ▸ filter_format _ n currency)⟩
  · rw [hvalue]
    exact ⟨isRoundedTo_atPrecision hplaces, (isRoundedTo_atPrecision hplaces).error⟩
  · rw [hvalue]
    exact value_atPrecision hplaces
  · rw [toList_format]
    exact isGrouped_insertCommas _
  · rw [filter_format, toList_format]
    rfl

example : ({ commas := true, written := [("USD", 2)] } : NumberStyle).format
    (.written "-1234567.125") "USD" = "-1,234,567.12" := by decide +kernel

end DoubleEntry.NumberStyle
