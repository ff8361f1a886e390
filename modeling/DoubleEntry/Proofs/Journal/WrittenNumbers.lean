import DoubleEntry.Proofs.Decimal.Digits
import DoubleEntry.Proofs.Journal.FormulaPlaces
import DoubleEntry.Proofs.Journal.NumberTokens

/-!
# Written numbers

A number is written with digits, a point and commas, and a minus sign in front. What is stored of it
in a posting or a balance directive is the number that it denotes, provided that a decimal has that
value; but where the lexer ends a negative number at a comma, all in front of the comma is lost.

* `IsWrittenNumber`, `writtenNumber`: written numbers, and what they denote.
* `NumeralWords`, `words_of_numeral`: the words of a line with a written number.
* `Line.written_number_iff`: what is stored of a written number.
-/

namespace DoubleEntry

open Token

/-! ## What is written -/

/-- A number with or without a minus sign. -/
def IsWrittenNumber (cs : List Char) : Prop :=
  IsUnsigned cs ∨ ∃ digits, cs = '-' :: digits ∧ IsUnsigned digits

/-- The number that is written, without its commas. -/
def writtenNumber (cs : List Char) : ℚ :=
  match cs.filter (· ≠ ',') with
  | '-' :: digits => -unsignedNumber digits
  | digits => unsignedNumber digits

/-! ## Reading a written number -/

namespace Line

variable {l : Line} {kind : Token.Kind} {cs : List Char} {ws : List Word}

/-- Behind a formula, a number, a comma or an error ends the amount. -/
theorem stopsShort_of_fits {e : Formula Word} (he : e.Fits Prod.fst .sum)
    (hkind : kind ∈ [.number, .comma, .error]) : StopsShort (e.symbols ++ (kind, cs) :: ws) := by
  intro l hl
  have hsign : ∀ w ∈ ((kind, cs) :: ws).head?, w.1 ∉ operators := by
    rintro w ⟨⟩
    simp only [List.mem_cons, List.not_mem_nil, or_false] at hkind
    obtain rfl | rfl | rfl := hkind <;> simp [operators]
  obtain ⟨l₁, hl₁, hread⟩ := ok?_expression_of_words he hl hsign
  refine ⟨startsExpression_of_fits he hl, fun n l' h => ⟨kind, hkind, ?_⟩⟩
  rw [hread] at h
  obtain ⟨_, -, heq⟩ := Option.map_eq_some_iff.1 h
  obtain ⟨-, rfl⟩ := Prod.mk.inj heq
  rw [nextKind?_of_words, hl₁]
  rfl

/-- A sign alone is no expression. -/
theorem stopsShort_of_sign {sign : List Char} (hkind : kind ∈ [.comma, .error, .currency]) :
    StopsShort ((.minus, sign) :: (kind, cs) :: ws) := by
  intro l hl
  obtain ⟨t, ts, htokens, ht, -, hts⟩ := of_words_cons hl
  obtain ⟨t', ts', htokens', ht', -, -⟩ := of_words_cons hts
  have hnone : (forget l.expression).ok? = none := by
    have hfactor : (forget (l.withTokens ts).factor).ok? = none := by
      rw [forget_factor_cons htokens', ht']
      simp only [List.mem_cons, List.not_mem_nil, or_false] at hkind
      obtain rfl | rfl | rfl := hkind <;> rfl
    rw [forget_expression, forget_product, forget_factor_cons htokens, ht]
    simp only [Reading.ok?_bind, hfactor, Option.bind_none]
  refine ⟨?_, fun n l' h => absurd (hnone.symm.trans h) (by simp)⟩
  rw [startsExpression, nextKind?_of_words, hl]
  rfl

end Line

section Words

variable {cs more : List Char} {currency : Currency} {ending : List Word}

theorem scans_currency (hcurrency : IsCurrency currency.toList) (hmore : AtLineEnd more)
    (hending : Scans false more ending) :
    Scans false (' ' :: (currency.toList ++ more)) ((.currency, currency.toList) :: ending) :=
  ((readAs_currency hcurrency (hmore.follow.mono (by simp))).scans (b := false) hending).blank

/-- What is left of a number in front of its currency. -/
theorem words_of_rest {rest : List Char} (hne : rest ≠ [])
    (hchars : ∀ c ∈ rest, c.isDigit ∨ c = ',' ∨ c = '.') (more : List Char) :
    ∃ kind text ws, Scans false (rest ++ ' ' :: more) ((kind, text) :: ws) ∧
      (kind = .number ∧ (∀ c ∈ rest.head?, c.isDigit) ∨ kind ∈ [Kind.comma, .error]) := by
  obtain ⟨t, ts, hscan, hkind⟩ := kind_of_rest hne hchars ⟨0, 0, false⟩ more
  have hwords := scans_words false (rest ++ ' ' :: more)
  rw [hscan] at hwords
  exact ⟨t.kind, t.text.toList, ts.map word, hwords, hkind⟩

/-- A number without a sign is one word, or what is left of it is another one. -/
theorem words_of_unsigned (h : IsUnsigned cs) (hcurrency : IsCurrency currency.toList)
    (hmore : AtLineEnd more) (hending : Scans false more ending) :
    ((numberLength cs).1 = cs.length ∧ Scans false (cs ++ ' ' :: (currency.toList ++ more))
      ((.number, cs) :: (.currency, currency.toList) :: ending)) ∨
    ∃ number kind text ws, Scans false (cs ++ ' ' :: (currency.toList ++ more))
      ((.number, number) :: (kind, text) :: ws) ∧ kind ∈ [.number, .comma, .error] := by
  have hread := readAs_unsigned h (currency.toList ++ more)
  have htext : cs.take (numberLength cs).1 ++ (cs.drop (numberLength cs).1 ++
      ' ' :: (currency.toList ++ more)) = cs ++ ' ' :: (currency.toList ++ more) := by
    rw [← List.append_assoc, List.take_append_drop]
  by_cases hrest : cs.drop (numberLength cs).1 = []
  · have hlength : (numberLength cs).1 = cs.length :=
      Nat.le_antisymm (numberLength_le cs) (List.drop_eq_nil_iff.1 hrest)
    rw [hlength, List.take_length, List.drop_length, List.nil_append] at hread
    exact .inl ⟨hlength, hread.scans (scans_currency hcurrency hmore hending)⟩
  · obtain ⟨kind, text, ws, hws, hkind⟩ := words_of_rest hrest
      (fun c hc => h.chars c (List.mem_of_mem_drop hc)) (currency.toList ++ more)
    refine .inr ⟨_, kind, text, ws, htext ▸ hread.scans hws, ?_⟩
    obtain ⟨rfl, -⟩ | hkind := hkind
    · decide
    · exact List.mem_cons_of_mem _ hkind

/-- What the words of a line with a written number and its currency are: they stop short, or they
are the number, or they are what is left of a misgrouped number behind a sign. -/
def NumeralWords (cs : List Char) (currency : Currency) (ws : List Word) : Prop :=
  Line.StopsShort ws ∨
    (¬IsMisgrouped cs ∧ ws = (⟨.number (.number, cs), currency⟩ : Quantity).words) ∨
    ∃ lead rest sign, cs = '-' :: (lead ++ ',' :: rest) ∧ IsUnsigned rest ∧
      (∀ c ∈ lead, c = ',' ∨ c.isDigit) ∧
      (IsMisgrouped cs ↔ ∃ d ∈ lead, d.isDigit ∧ d ≠ '0') ∧
      ws = (⟨.signed (.minus, sign) (.number (.number, rest)), currency⟩ : Quantity).words

theorem lineWords_number {ending : List Word} (hend : lineWords ending = []) (text : List Char) :
    lineWords ((.number, text) :: (.currency, currency.toList) :: ending) =
      (⟨.number (.number, text), currency⟩ : Quantity).words := by
  rw [lineWords_cons (by decide), lineWords_cons (by decide), hend]
  rfl

theorem ne_newline {kind : Kind} (hkind : kind ∈ [Kind.number, .comma, .error]) :
    kind ≠ .newline := by
  rintro rfl
  exact absurd hkind (by decide)

/-- Numbers that are not read to their end stop short. -/
theorem stopsShort_number {kind : Kind} (hkind : kind ∈ [Kind.number, .comma, .error])
    (number text : List Char) (ws : List Word) :
    Line.StopsShort (lineWords ((.number, number) :: (kind, text) :: ws)) := by
  rw [lineWords_cons (by decide), lineWords_cons (ne_newline hkind)]
  exact Line.stopsShort_of_fits (e := .number (.number, number))
    (.ofProduct (.ofFactor (.number rfl))) hkind

/-- A number without a sign. -/
theorem numeralWords_of_unsigned (h : IsUnsigned cs) (hcurrency : IsCurrency currency.toList)
    (hmore : AtLineEnd more) :
    ∃ ws, Scans false (cs ++ ' ' :: (currency.toList ++ more)) ws ∧
      NumeralWords cs currency (lineWords ws) := by
  obtain ⟨ending, hending, hend⟩ := hmore.exists_scans
  obtain ⟨-, hwords⟩ | ⟨number, kind, text, rest, hwords, hkind⟩ :=
    words_of_unsigned h hcurrency hmore hending
  · exact ⟨_, hwords, .inr (.inl ⟨h.not_isMisgrouped, lineWords_number hend cs⟩)⟩
  · exact ⟨_, hwords, .inl (stopsShort_number hkind number text rest)⟩

/-- A number whose sign is read with the digits behind it. -/
theorem numeralWords_of_minus {digits : List Char} {n : Nat} (hdigits : IsUnsigned digits)
    (hlength : numberLength digits = (n, false)) (hcurrency : IsCurrency currency.toList)
    (hmore : AtLineEnd more) :
    ∃ ws, Scans false ('-' :: digits ++ ' ' :: (currency.toList ++ more)) ws ∧
      NumeralWords ('-' :: digits) currency (lineWords ws) := by
  obtain ⟨ending, hending, hend⟩ := hmore.exists_scans
  have hread := readAs_minus_unsigned hdigits (currency.toList ++ more)
  rw [hlength, if_neg Bool.false_ne_true] at hread
  by_cases hrest : digits.drop n = []
  · obtain rfl : n = digits.length :=
      Nat.le_antisymm (le_of_numberLength hlength) (List.drop_eq_nil_iff.1 hrest)
    rw [List.take_length, List.drop_length, List.nil_append] at hread
    exact ⟨_, hread.scans (scans_currency hcurrency hmore hending),
      .inr (.inl ⟨not_isMisgrouped_of_whole hdigits hlength, lineWords_number hend _⟩)⟩
  · obtain ⟨kind, text, rest, hwords, hkind⟩ := words_of_rest hrest
      (fun c hc => hdigits.chars c (List.mem_of_mem_drop hc)) (currency.toList ++ more)
    have hkind : kind ∈ [Kind.number, .comma, .error] := by
      obtain ⟨rfl, -⟩ | hkind := hkind
      · decide
      · exact List.mem_cons_of_mem _ hkind
    have hall := hread.scans (b := false) hwords
    rw [List.cons_append, ← List.append_assoc, List.take_append_drop] at hall
    exact ⟨_, hall, .inl (stopsShort_number hkind _ text rest)⟩

/-- What is left of a number in front of its currency is no number if it does not begin with a
digit. -/
theorem words_of_not_digit {rest : List Char}
    (hchars : ∀ c ∈ rest, c.isDigit ∨ c = ',' ∨ c = '.') (hbegins : ∀ c ∈ rest.head?, ¬c.isDigit)
    (hcurrency : IsCurrency currency.toList) (hmore : AtLineEnd more)
    (hending : Scans false more ending) :
    ∃ kind text ws, Scans false (rest ++ ' ' :: (currency.toList ++ more)) ((kind, text) :: ws) ∧
      kind ∈ [Kind.comma, .error, .currency] := by
  cases rest with
  | nil => exact ⟨_, _, _, scans_currency hcurrency hmore hending, by decide⟩
  | cons c tail =>
    obtain ⟨kind, text, ws, hwords, ⟨-, hdigit⟩ | hkind⟩ :=
      words_of_rest (List.cons_ne_nil c tail) hchars (currency.toList ++ more)
    · exact absurd (hdigit c rfl) (hbegins c rfl)
    · exact ⟨kind, text, ws, hwords, List.mem_append_left [Kind.currency] hkind⟩

/-- A number whose sign is read up to a comma behind which no group of three digits stands. -/
theorem numeralWords_of_broken {digits : List Char} {n : Nat} (hdigits : IsUnsigned digits)
    (hlength : numberLength digits = (n, true)) (hcurrency : IsCurrency currency.toList)
    (hmore : AtLineEnd more) :
    ∃ ws, Scans false ('-' :: digits ++ ' ' :: (currency.toList ++ more)) ws ∧
      NumeralWords ('-' :: digits) currency (lineWords ws) := by
  obtain ⟨ending, hending, hend⟩ := hmore.exists_scans
  have hread := readAs_minus_unsigned hdigits (currency.toList ++ more)
  obtain ⟨lead, rest, rfl, rfl, hlead, hgroup⟩ := broken_of_numberLength hlength
  have htake : (lead ++ ',' :: rest).take (lead.length + 1) = lead ++ [','] := by
    rw [List.take_length_add_append]
    rfl
  have hdrop : (lead ++ ',' :: rest).drop (lead.length + 1) = rest := by simp
  have htext : '-' :: (lead ++ [',']) ++ (rest ++ ' ' :: (currency.toList ++ more)) =
      '-' :: (lead ++ ',' :: rest) ++ ' ' :: (currency.toList ++ more) := by simp
  rw [hlength, if_pos rfl, htake, hdrop] at hread
  have hchars : ∀ c ∈ rest, c.isDigit ∨ c = ',' ∨ c = '.' := fun c hc =>
    hdigits.chars c (List.mem_append_right _ (List.mem_cons_of_mem _ hc))
  by_cases hbegins : ∃ c tail, rest = c :: tail ∧ c.isDigit
  · have hunsigned : IsUnsigned rest := by
      have hsublist : List.Sublist rest (lead ++ ',' :: rest) :=
        (List.sublist_cons_self ',' rest).trans (List.sublist_append_right lead _)
      exact ⟨hbegins, hchars, (hsublist.count_le '.').trans hdigits.point⟩
    obtain ⟨hwhole, hwords⟩ | ⟨number, kind, text, others, hwords, hkind⟩ :=
      words_of_unsigned hunsigned hcurrency hmore hending
    · -- The sign has taken all up to the comma along, and the rest is a number of its own.
      have hlead : ∀ c ∈ lead, c = ',' ∨ c.isDigit := fun c hc =>
        (hlead c hc).imp_right
          (isDecimalDigit_of_unsigned (hdigits.chars c (List.mem_append_left _ hc))).1
      have hrest : numberLength rest = (rest.length, (numberLength rest).2) := by rw [← hwhole]
      refine ⟨_, htext ▸ hread.scans hwords, .inr (.inr ⟨lead, rest, '-' :: (lead ++ [',']), rfl,
        hunsigned, hlead, isMisgrouped_iff_of_broken hdigits hunsigned hlength hgroup hrest, ?_⟩)⟩
      rw [lineWords_cons (by decide), lineWords_number hend]
      rfl
    · have hfits : (Formula.signed ((.minus, '-' :: (lead ++ [','])) : Word)
          (.number (.number, number))).Fits Prod.fst .sum :=
        .ofProduct (.ofFactor (.signed (.inr rfl) (.number rfl)))
      refine ⟨_, htext ▸ hread.scans hwords, .inl ?_⟩
      rw [lineWords_cons (by decide), lineWords_cons (by decide),
        lineWords_cons (ne_newline hkind)]
      exact Line.stopsShort_of_fits hfits hkind
  · have hnone : ∀ c ∈ rest.head?, ¬c.isDigit := fun c hc hdigit =>
      hbegins ⟨c, rest.tail, (List.cons_head?_tail hc).symm, hdigit⟩
    obtain ⟨kind, text, ws, hwords, hkind⟩ :=
      words_of_not_digit hchars hnone hcurrency hmore hending
    refine ⟨_, htext ▸ hread.scans hwords, .inl ?_⟩
    have hline : kind ≠ .newline := by
      rintro rfl
      exact absurd hkind (by decide)
    rw [lineWords_cons (by decide), lineWords_cons hline]
    exact Line.stopsShort_of_sign hkind

/-- The words of a line with a written number and its currency. -/
theorem words_of_numeral (hcs : IsWrittenNumber cs) (hcurrency : IsCurrency currency.toList)
    (hmore : AtLineEnd more) :
    ∃ ws, Scans false (cs ++ ' ' :: (currency.toList ++ more)) ws ∧
      NumeralWords cs currency (lineWords ws) := by
  obtain hunsigned | ⟨digits, rfl, hdigits⟩ := hcs
  · exact numeralWords_of_unsigned hunsigned hcurrency hmore
  obtain ⟨n, broken, hlength⟩ : ∃ n broken, numberLength digits = (n, broken) := ⟨_, _, rfl⟩
  cases broken with
  | false => exact numeralWords_of_minus hdigits hlength hcurrency hmore
  | true => exact numeralWords_of_broken hdigits hlength hcurrency hmore

end Words

/-! ## The number that is stored -/

theorem IsUnsigned.writesMagnitude {cs : List Char} (h : IsUnsigned cs) :
    WritesMagnitude (cs.filter (· ≠ ',')) := by
  obtain ⟨c, rest, rfl, hc⟩ := h.begins
  have hne : c ≠ ',' := by
    rintro rfl
    exact absurd hc (by decide)
  refine ⟨?_, fun d hd => ?_, Nat.le_trans (List.filter_sublist.count_le '.') h.point⟩
  · rw [List.filter_cons_of_pos (by simpa using hne)]
    rintro _ ⟨⟩
    exact hc
  · obtain ⟨hd, hcomma⟩ := List.mem_filter.1 hd
    have hchars := h.chars d hd
    simp only [decide_eq_true_eq] at hcomma
    tauto

/-- What a written number comes to. -/
theorem value_of_written {cs : List Char} (hcs : IsWrittenNumber cs) {n : Decimal}
    (hn : Decimal.ofChars? (cs.filter (· ≠ ',')) = some n) :
    n.value = writtenNumber cs ↔ Decimal.IsValue (writtenNumber cs) := by
  refine ⟨fun h => ⟨n, h⟩, fun h => ?_⟩
  obtain hunsigned | ⟨digits, rfl, hdigits⟩ := hcs
  · have hwrites := hunsigned.writesMagnitude
    have hnumber : writtenNumber cs = unsignedNumber (cs.filter (· ≠ ',')) := by
      rw [writtenNumber]
      split
      · next digits heq =>
        rw [heq] at hwrites
        exact absurd (hwrites.begins '-' rfl) (by decide)
      · rfl
    rw [hnumber] at h ⊢
    exact (Decimal.ofChars?_reads hn hwrites).2 h
  · have hwrites := hdigits.writesMagnitude
    have hfilter : ('-' :: digits).filter (· ≠ ',') = '-' :: digits.filter (· ≠ ',') := rfl
    have hnumber : writtenNumber ('-' :: digits) = -unsignedNumber (digits.filter (· ≠ ',')) := by
      rw [writtenNumber, hfilter]
      rfl
    have hminus : ∀ c ∈ (digits.filter (· ≠ ',')).head?, c ≠ '-' := by
      rintro c hc rfl
      exact absurd (hwrites.begins _ hc) (by decide)
    rw [hfilter, Decimal.ofChars?_minus hminus] at hn
    obtain ⟨a, ha, rfl⟩ := Option.map_eq_some_iff.1 hn
    rw [hnumber] at h ⊢
    rw [Decimal.value_neg_readBack, (Decimal.ofChars?_reads ha hwrites).2 (by simpa using h.neg)]

/-- The digits of a text with commas come to zero if they all are zeros. -/
theorem digitsFrom_filter_eq_zero_iff (cs : List Char) :
    digitsFrom 0 (cs.filter (· ≠ ',')) = 0 ↔ ¬∃ d ∈ cs, d.isDigit ∧ d ≠ '0' := by
  rw [digitsFrom_zero_eq_zero_iff]
  constructor
  · rintro h ⟨d, hd, hdigit, hne⟩
    have hcomma : d ≠ ',' := by
      rintro rfl
      exact absurd hdigit (by decide)
    exact hne (h d (List.mem_filter.2 ⟨hd, by simpa using hcomma⟩) hdigit)
  · intro h c hc hdigit
    by_contra hne
    exact h ⟨c, (List.mem_filter.1 hc).1, hdigit, hne⟩

/-- What is left of a negative number behind a comma comes to all of it only if there are but zeros
in front of the comma. -/
theorem value_of_rest {lead rest : List Char} (hrest : IsUnsigned rest)
    (hlead : ∀ c ∈ lead, c = ',' ∨ c.isDigit) {n : Decimal}
    (hn : Decimal.ofChars? (rest.filter (· ≠ ',')) = some n) :
    n.neg.value = writtenNumber ('-' :: (lead ++ ',' :: rest)) ↔
      Decimal.IsValue (writtenNumber ('-' :: (lead ++ ',' :: rest))) ∧
        ¬∃ d ∈ lead, d.isDigit ∧ d ≠ '0' := by
  have hwrites := hrest.writesMagnitude
  obtain ⟨hle, hexact⟩ := Decimal.ofChars?_reads hn hwrites
  have hfilter : ('-' :: (lead ++ ',' :: rest)).filter (· ≠ ',') =
      '-' :: (lead.filter (· ≠ ',') ++ rest.filter (· ≠ ',')) := by simp
  have hdigits : ∀ c ∈ lead.filter (· ≠ ','), c.isDigit := by
    intro c hc
    obtain ⟨hc, hne⟩ := List.mem_filter.1 hc
    exact (hlead c hc).resolve_left (by simpa using hne)
  have hbegins : ∃ c tail, rest.filter (· ≠ ',') = c :: tail ∧ c.isDigit := by
    obtain ⟨c, tail, rfl, hc⟩ := hrest.begins
    have hne : c ≠ ',' := by
      rintro rfl
      exact absurd hc (by decide)
    exact ⟨c, _, List.filter_cons_of_pos (by simpa using hne), hc⟩
  have hnumber : writtenNumber ('-' :: (lead ++ ',' :: rest)) =
      -unsignedNumber (lead.filter (· ≠ ',') ++ rest.filter (· ≠ ',')) := by
    rw [writtenNumber, hfilter]
    rfl
  obtain ⟨k, hk⟩ := unsignedNumber_append hdigits hbegins
  rw [Decimal.value_neg, hnumber, neg_inj, hk, ← digitsFrom_filter_eq_zero_iff]
  by_cases hd : digitsFrom 0 (lead.filter (· ≠ ',')) = 0
  · rw [hd, Nat.cast_zero, zero_mul, zero_add]
    refine ⟨fun h => ⟨?_, rfl⟩, fun h => hexact (by simpa using h.1.neg)⟩
    exact h ▸ (Decimal.IsValue.neg ⟨n, rfl⟩)
  · refine ⟨fun h => ?_, fun h => absurd h.2 hd⟩
    -- The digits in front count for ten at least.
    exfalso
    have hone : (1 : ℚ) ≤ digitsFrom 0 (lead.filter (· ≠ ',')) := by
      exact_mod_cast Nat.one_le_iff_ne_zero.2 hd
    have hten : (10 : ℚ) ≤ 10 ^ (k + 1) := by
      rw [pow_succ]
      have : (1 : ℚ) ≤ 10 ^ k := one_le_pow₀ (by norm_num)
      linarith
    nlinarith

namespace Line

variable {l : Line} {q : Quantity} {account : Account}

/-- The number of a quantity is stored in a posting, and likewise in a balance directive. -/
theorem ok?_of_quantity_words (hq : q.Fits)
    (hl : l.words = (.account, account.toList) :: q.words) :
    l.posting.ok? = (q.formula.result?.map fun n =>
      { account, units := some (.complete ⟨n, q.currency⟩)
        metadata := ({} : Metadata).setLine l.number }) ∧
    ∀ place, (l.wholeStatement .balance place).ok? =
      q.formula.result?.map fun n => .balance ⟨account, ⟨n, q.currency⟩, none⟩ := by
  refine ⟨?_, fun place => ?_⟩
  · have hwords : l.words = PostingForm.words { account, units := some q } := by
      rw [hl, PostingForm.words, PostingForm.wordsOf]
      simp
    rw [ok?_posting_of_words (by simpa [PostingForm.quantities]) hwords]
    simp only [PostingForm.result?, PostingForm.resultOf, Option.elim_some, Option.elim_none,
      Quantity.result?]
    cases q.formula.result? <;> rfl
  · rw [ok?_balance_of_words hq hl, Quantity.result?, Option.map_map]
    rfl

/-- The number that is stored of a written number, if the line is read without an error. -/
theorem exists_stored {cs : List Char} (hcs : IsWrittenNumber cs)
    (haccount : IsAccount account.toList) {currency : Currency}
    (hcurrency : IsCurrency currency.toList) {more : List Char} (hmore : AtLineEnd more)
    {pos : Cursor}
    (hl : l.tokens = (scanFrom pos (account.toList ++
      ' ' :: (cs ++ ' ' :: (currency.toList ++ more)))).takeWhile (·.kind ≠ .newline)) :
    ∃ stored : Option Decimal,
      l.posting.ok? = (stored.map fun n =>
        { account, units := some (.complete ⟨n, currency⟩)
          metadata := ({} : Metadata).setLine l.number }) ∧
      (∀ place, (l.wholeStatement .balance place).ok? =
        stored.map fun n => .balance ⟨account, ⟨n, currency⟩, none⟩) ∧
      ∀ n, stored = some n → (n.value = writtenNumber cs ↔
        Decimal.IsValue (writtenNumber cs) ∧ ¬IsMisgrouped cs) := by
  obtain ⟨ws, hws, hcases⟩ := words_of_numeral hcs hcurrency hmore
  have hfollow : Follow [' ', '\n'] (' ' :: (cs ++ ' ' :: (currency.toList ++ more))) :=
    follow_blank _ (by decide)
  have hwords : l.words = (.account, account.toList) :: lineWords ws := by
    have hrest := hws.blank (pos.advance account.toList (decide (Kind.account = .newline))) rfl
    rw [words, hl, (readAs_account haccount hfollow).scan_eq,
      List.takeWhile_cons_of_pos (by simp [Cursor.token]), List.map_cons, word_token, lineWords,
      ← hrest, List.takeWhile_map]
    rfl
  have hread {e : Formula Word} (he : e.Fits Prod.fst .factor)
      (hquantity : lineWords ws = (⟨e, currency⟩ : Quantity).words) :=
    ok?_of_quantity_words (q := ⟨e, currency⟩) (.ofProduct (.ofFactor he)) (hquantity ▸ hwords)
  obtain hshort | ⟨hgrouped, hnumber⟩ |
    ⟨lead, rest, sign, rfl, hrest, hlead, hgrouped, hnumber⟩ := hcases
  · exact ⟨none, ok?_posting_of_stopsShort hshort hwords,
      fun place => ok?_balance_of_stopsShort hshort hwords, by rintro n ⟨⟩⟩
  · obtain ⟨hposting, hbalance⟩ := hread (.number rfl) hnumber
    refine ⟨_, hposting, hbalance, fun n hn => ?_⟩
    rw [value_of_written hcs hn, and_iff_left hgrouped]
  · obtain ⟨hposting, hbalance⟩ := hread (.signed (.inr rfl) (.number rfl)) hnumber
    refine ⟨_, hposting, hbalance, fun n hn => ?_⟩
    obtain ⟨a, ha, rfl⟩ := Option.map_eq_some_iff.1 hn
    rw [hgrouped]
    exact value_of_rest hrest hlead ha

/-- If a line of a posting or a balance directive with a written number is read without an error,
the number stored is the one that is written exactly if a decimal has that value and it is not
misgrouped. -/
theorem written_number_iff {cs : List Char} (hcs : IsWrittenNumber cs)
    (haccount : IsAccount account.toList) {currency : Currency}
    (hcurrency : IsCurrency currency.toList) {more : List Char} (hmore : AtLineEnd more)
    {pos : Cursor}
    (hl : l.tokens = (scanFrom pos (account.toList ++
      ' ' :: (cs ++ ' ' :: (currency.toList ++ more)))).takeWhile (·.kind ≠ .newline)) :
    (∀ p, l.posting.ok? = some p → ∃ n : Decimal,
      p = { account, units := some (.complete ⟨n, currency⟩)
            metadata := ({} : Metadata).setLine l.number } ∧
      (n.value = writtenNumber cs ↔ Decimal.IsValue (writtenNumber cs) ∧ ¬IsMisgrouped cs)) ∧
    ∀ place body, (l.wholeStatement .balance place).ok? = some body → ∃ n : Decimal,
      body = .balance ⟨account, ⟨n, currency⟩, none⟩ ∧
      (n.value = writtenNumber cs ↔
        Decimal.IsValue (writtenNumber cs) ∧ ¬IsMisgrouped cs) := by
  obtain ⟨stored, hposting, hbalance, hvalue⟩ :=
    exists_stored hcs haccount hcurrency hmore hl
  refine ⟨fun p hp => ?_, fun place body hbody => ?_⟩
  · obtain ⟨n, hn, rfl⟩ := Option.map_eq_some_iff.1 (hposting.symm.trans hp)
    exact ⟨n, rfl, hvalue n hn⟩
  · obtain ⟨n, hn, rfl⟩ := Option.map_eq_some_iff.1 ((hbalance place).symm.trans hbody)
    exact ⟨n, rfl, hvalue n hn⟩

/-- The line of a posting of a deposit. -/
def depositLine : Line where
  indent := none
  tokens := (scanFrom {} "Assets:Cash -1,234.50 USD\n".toList).takeWhile (·.kind ≠ .newline)
  ending := .empty 25

theorem written_number_iff_deposit :
    IsWrittenNumber "-1,234.50".toList ∧ ∃ n : Decimal,
      depositLine.posting.ok? = some { account := "Assets:Cash"
                                       units := some (.complete ⟨n, "USD"⟩)
                                       metadata := ({} : Metadata).setLine 1 } ∧
      (n.value = writtenNumber "-1,234.50".toList ↔
        Decimal.IsValue (writtenNumber "-1,234.50".toList) ∧
          ¬IsMisgrouped "-1,234.50".toList) := by
  have hnumeral : IsWrittenNumber "-1,234.50".toList :=
    .inr ⟨"1,234.50".toList, rfl, ⟨'1', ",234.50".toList, rfl, rfl⟩,
      List.all_iff_forall_prop.1 (by decide), by decide⟩
  have haccount : IsAccount "Assets:Cash".toList :=
    ⟨"Assets".toList, by decide, 'C', "ash".toList, rfl, by decide +kernel, by decide +kernel⟩
  have hcurrency : IsCurrency "USD".toList :=
    ⟨'U', "SD".toList, rfl, by decide, by decide, by decide,
      List.all_iff_forall_prop.1 (by decide), by decide⟩
  have hread : depositLine.posting.ok? = some
      { account := "Assets:Cash", units := some (.complete ⟨.written "-1234.50", "USD"⟩)
        metadata := ({} : Metadata).setLine 1 } := by
    have hwords : depositLine.words = (.account, "Assets:Cash".toList) ::
        (⟨.number (.number, "-1,234.50".toList), "USD"⟩ : Quantity).words := by decide +kernel
    rw [(ok?_of_quantity_words (.ofProduct (.ofFactor (.number rfl))) hwords).1]
    decide +kernel
  have hend : AtLineEnd ['\n'] := .inr ⟨[], .inl rfl⟩
  have htokens : depositLine.tokens = (scanFrom {} ("Assets:Cash".toList ++ ' ' ::
      ("-1,234.50".toList ++ ' ' :: ("USD".toList ++ ['\n'])))).takeWhile (·.kind ≠ .newline) := rfl
  obtain ⟨n, hp, hn⟩ :=
    (written_number_iff hnumeral haccount hcurrency hend htokens).1 _ hread
  have hline : depositLine.number = 1 := by decide +kernel
  rw [hline] at hp
  exact ⟨hnumeral, n, hread.trans (congrArg some hp), hn⟩

/-- All in front of a comma is lost if the group after it is too short. -/
theorem written_number_misread :
    IsWrittenNumber "-4,2".toList ∧ IsMisgrouped "-4,2".toList ∧ writtenNumber "-4,2".toList = -42 ∧
      Directive.ofText? "2024-01-01 balance Assets:Cash -4,2 USD\n" =
        some ⟨.afterNewYear 0, ({} : Metadata).setLine 1,
          .balance ⟨"Assets:Cash", ⟨.written "-2", "USD"⟩, none⟩⟩ := by
  refine ⟨.inr ⟨"4,2".toList, rfl, ⟨'4', ",2".toList, rfl, rfl⟩,
    List.all_iff_forall_prop.1 (by decide), by decide⟩, ?_, ?_, ?_⟩
  · exact ⟨['4'], ['2'], [], rfl, ⟨'4', by decide, by decide, by decide⟩,
      List.forall_mem_singleton.2 (by decide), by decide, by decide, by rintro d ⟨⟩⟩
  · have hdigits : digitsFrom 0 "42".toList = 42 := by decide
    have hplaces : placesAfterPoint "42".toList = 0 := by decide
    change -((digitsFrom 0 "42".toList : ℚ) / 10 ^ placesAfterPoint "42".toList) = -42
    rw [hdigits, hplaces]
    norm_num
  · -- The sign is read with the digits in front of the comma, and then a number without a sign.
    let misread : Quantity := ⟨.signed (.minus, "-4,".toList) (.number (.number, ['2'])), "USD"⟩
    have hwords : (scanFrom ⟨0, 0, false⟩ "Assets:Cash -4,2 USD\n".toList).map word =
        ((.account, "Assets:Cash".toList) :: misread.words) ++ endWords "\n" := by decide +kernel
    have hname : ("balance", Keyword.balance) ∈ Keyword.all := by decide
    have hline : InLine ((.account, "Assets:Cash".toList) :: misread.words) :=
      List.all_iff_forall_prop.1 (by decide +kernel)
    have hscans : Scans false ("Assets:Cash -4,2 USD".toList ++ "\n".toList)
        (((.account, "Assets:Cash".toList) :: misread.words) ++ endWords "\n") :=
      hwords ▸ scans_words false _
    obtain ⟨l, place, hl, htext⟩ := Directive.ofText?_statement
      (Date.afterNewYear 0).writtenAs_text hname (by decide) hline hscans
    have hmisread : misread.Fits :=
      .ofProduct (.ofFactor (.signed (.inr rfl) (.number rfl)))
    rw [ok?_balance_of_words hmisread hl] at htext
    exact htext.trans (by decide +kernel)

end Line

end DoubleEntry
