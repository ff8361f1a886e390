import DoubleEntry.Proofs.Printed.Same

/-!
# Reading printed postings

The words that are printed for a posting are read back as the posting, with its numbers as they are
read back.

* `Line.Yields`: what reading from a line gives, and which words it leaves.
* `Line.units?_yields`, `Line.cost?_yields`, `Line.price?_yields`: the parts of a posting.
* `Line.posting_of_words`: a posting.
-/

namespace DoubleEntry

open Token

namespace Line

variable {α β : Type} {a : α} {b : β} {l l' : Line} {kind : Token.Kind} {cs : List Char}
  {w : Word} {ws ws' : List Word}

/-- The first word of a line is the one of its first token. -/
theorem of_words_cons (h : l.words = (kind, cs) :: ws) :
    ∃ t ts, l.tokens = t :: ts ∧ t.kind = kind ∧ t.text.toList = cs ∧
      (l.withTokens ts).words = ws := by
  obtain ⟨t, ts, htokens, hword, hrest⟩ := List.map_eq_cons_iff.1 h
  obtain ⟨hkind, htext⟩ := Prod.mk.inj hword
  exact ⟨t, ts, htokens, hkind, htext, hrest⟩

theorem tokens_eq_nil (h : l.words = []) : l.tokens = [] := List.map_eq_nil_iff.1 h

/-- The kind of the next token is told by the words. -/
theorem nextKind?_of_words (l : Line) : l.nextKind? = l.words.head?.map Prod.fst := by
  rw [nextKind?, words]
  cases l.tokens <;> rfl

/-- Reading gives a value and leaves a line with these words. -/
def Yields (r : Reading (α × Line)) (a : α) (ws : List Word) : Prop :=
  ∃ l', r = pure (a, l') ∧ l'.words = ws

theorem Yields.pure (h : l.words = ws) : Yields (Pure.pure (a, l)) a ws := ⟨l, rfl, h⟩

theorem Yields.bind {r : Reading (α × Line)} {f : α × Line → Reading (β × Line)}
    (h : Yields r a ws) (hf : ∀ l', l'.words = ws → Yields (f (a, l')) b ws') :
    Yields (r >>= f) b ws' := by
  obtain ⟨l', rfl, hl'⟩ := h
  rw [pure_bind]
  exact hf l' hl'

/-- A word of the kind that is asked for is read off. -/
theorem token_yields (h : l.words = (kind, cs) :: ws) (what : Expectation) :
    ∃ t, t.text.toList = cs ∧ Yields (l.token kind what) t ws := by
  obtain ⟨t, ts, htokens, hkind, htext, hrest⟩ := of_words_cons h
  refine ⟨t, htext, l.withTokens ts, ?_, hrest⟩
  rw [token, htokens]
  exact if_pos hkind

theorem account_yields {account : Account} (h : l.words = (.account, account.toList) :: ws) :
    Yields l.account account ws := by
  obtain ⟨t, htext, hyields⟩ := token_yields h .account
  obtain rfl : t.text = account := String.toList_inj.1 htext
  exact hyields.bind fun l' hl' => .pure hl'

theorem currency_yields {currency : Currency}
    (h : l.words = (.currency, currency.toList) :: ws) : Yields l.currency currency ws := by
  obtain ⟨t, htext, hyields⟩ := token_yields h .currency
  obtain rfl : t.text = currency := String.toList_inj.1 htext
  exact hyields.bind fun l' hl' => .pure hl'

theorem dateValue_of_text {t : Token} {d : Date} (h : t.text.toList = d.toChars) :
    dateValue t = pure d := by
  have htext : t.text = d.text := by rw [Date.text, ← h, String.ofList_toList]
  rw [dateValue, htext, Date.ofText?_text]

theorem date_yields {d : Date} (h : l.words = (.date, d.toChars) :: ws) :
    Yields l.date d ws := by
  obtain ⟨t, htext, hyields⟩ := token_yields h .date
  refine hyields.bind fun l' hl' => ?_
  simp only [dateValue_of_text htext, pure_bind]
  exact .pure hl'

theorem finish_of_words (h : l.words = []) : l.finish = pure () := by
  have htokens := tokens_eq_nil h
  rw [finish, htokens]
  exact if_pos htokens

/-! ## Numbers -/

theorem numberValue_of_filter {t : Token} {n : Decimal}
    (h : t.text.toList.filter (· ≠ ',') = n.toChars) : numberValue t = pure n.readBack := by
  rw [numberValue, h, Decimal.ofChars?_toChars]

theorem numberValue_of_text {t : Token} {n : Decimal} (h : t.text.toList = n.toChars) :
    numberValue t = pure n.readBack :=
  numberValue_of_filter (by rw [h, Decimal.filter_toChars])

/-- What stands after a number is no sign of arithmetic. -/
def EndsNumber (ws : List Word) : Prop :=
  ∀ w ∈ ws.head?, w.1 ≠ .plus ∧ w.1 ≠ .minus ∧ w.1 ≠ .star ∧ w.1 ≠ .slash

theorem EndsNumber.kind_ne (h : EndsNumber l.words) :
    ∀ t ∈ l.tokens.head?,
      t.kind ≠ .plus ∧ t.kind ≠ .minus ∧ t.kind ≠ .star ∧ t.kind ≠ .slash := by
  intro t ht
  refine h t.word ?_
  rw [words, List.head?_map]
  exact Option.mem_map_of_mem _ ht

theorem forget_moreFactors_of_words (h : EndsNumber l.words) (n : Decimal) :
    forget (l.moreFactors n) = pure (n, l) :=
  forget_moreFactors_of_ne (fun t ht => (h.kind_ne t ht).2.2) n

theorem forget_moreProducts_of_words (h : EndsNumber l.words) (n : Decimal) :
    forget (l.moreProducts n) = pure (n, l) :=
  forget_moreProducts_of_ne (fun t ht => ⟨(h.kind_ne t ht).1, (h.kind_ne t ht).2.1⟩) n

/-- A reading that gives a value with some rest gave it before it was forgotten how long that is. -/
theorem of_forget_eq_pure {k : Nat} {r : Reading (α × Shorter k)} {p : α × Line}
    (h : forget r = pure p) : ∃ rest : Shorter k, r = pure (p.1, rest) ∧ rest.val = p.2 := by
  have hrun := congrArg ExceptT.run h
  rw [forget, ExceptT.run_map, map_eq_pure_bind] at hrun
  cases hr : r.run with
  | exact outcome =>
    rw [hr] at hrun
    cases outcome with
    | ok q =>
      have heq : (q.1, q.2.val) = p := by simpa [Except.map] using hrun
      exact ⟨q.2, ExceptT.ext (by rw [hr, ← heq]; rfl), by rw [← heq]⟩
    | error e => simp [Except.map] at hrun
  | rounded outcome => simp [hr, Checked.afterRounding] at hrun
  | error e => simp [hr] at hrun

/-- A printed number is read as an expression, up to what ends a number. -/
theorem expression_yields {n : Decimal} (h : l.words = (.number, n.toChars) :: ws)
    (hends : EndsNumber ws) :
    ∃ rest : Shorter l.size, l.expression = pure (n.readBack, rest) ∧ rest.val.words = ws := by
  obtain ⟨t, ts, htokens, hkind, htext, hrest⟩ := of_words_cons h
  have hread : forget l.expression = pure (n.readBack, l.withTokens ts) := by
    rw [forget_expression, forget_product, forget_factor_cons htokens, hkind]
    simp only [numberValue_of_text htext, pure_bind]
    rw [forget_moreFactors_of_words (by rwa [hrest]), pure_bind,
      forget_moreProducts_of_words (by rwa [hrest])]
  obtain ⟨rest, hrest', heq⟩ := of_forget_eq_pure hread
  exact ⟨rest, hrest', by rw [heq, hrest]⟩

theorem startsExpression_of_words (h : l.words = (.number, cs) :: ws) :
    l.startsExpression = true := by
  rw [startsExpression, nextKind?_of_words, h]
  rfl

/-- A printed amount is read back. -/
theorem amount_yields {a : Amount} (h : l.words = a.words ++ ws) :
    Yields l.amount a.readBack ws := by
  obtain ⟨rest, hread, hrest⟩ := expression_yields h (by rintro w ⟨⟩; simp)
  rw [amount, hread, pure_bind]
  exact (currency_yields hrest).bind fun l' hl' => .pure hl'

/-- What stands after the units of a posting: nothing, or the start of a cost or price. -/
def EndsUnits (ws : List Word) : Prop :=
  ∀ w ∈ ws.head?, w.1 = .leftBrace ∨ w.1 = .at ∨ w.1 = .doubleAt

theorem EndsUnits.endsNumber (h : EndsUnits ws) : EndsNumber ws := by
  intro w hw
  obtain hkind | hkind | hkind := h w hw <;> simp [hkind]

/-- Printed units are read back, with what is missing of them. -/
theorem units?_yields {units : Option Units} (h : l.words = units.elim [] Units.words ++ ws)
    (hends : EndsUnits ws) : Yields l.units? (units.map Units.readBack) ws := by
  have hnext (l' : Line) (hl' : l'.words = ws) :
      l'.nextKind? ≠ some .currency ∧ l'.startsExpression = false := by
    rw [startsExpression, nextKind?_of_words, hl']
    cases ws with
    | nil => exact ⟨by simp, rfl⟩
    | cons w ws => obtain hkind | hkind | hkind := hends w rfl <;> simp [hkind]
  cases units with
  | none =>
    obtain ⟨hcurrency, hstarts⟩ := hnext l h
    rw [units?, hstarts, if_neg Bool.false_ne_true, if_neg hcurrency]
    exact .pure h
  | some units =>
    cases units with
    | complete a =>
      obtain ⟨rest, hread, hrest⟩ := expression_yields h (by rintro w ⟨⟩; simp)
      have hcurrency : rest.val.nextKind? = some .currency := by
        rw [nextKind?_of_words, hrest]
        rfl
      rw [units?, startsExpression_of_words h, if_pos rfl, hread, pure_bind]
      simp only [if_pos hcurrency]
      exact (currency_yields hrest).bind fun l' hl' => .pure hl'
    | numberOnly n =>
      obtain ⟨rest, hread, hrest⟩ := expression_yields h hends.endsNumber
      rw [units?, startsExpression_of_words h, if_pos rfl, hread, pure_bind]
      simp only [if_neg (hnext rest.val hrest).1]
      exact .pure hrest
    | currencyOnly c =>
      have hcurrency : l.nextKind? = some .currency := by
        rw [nextKind?_of_words, h]
        rfl
      have hstarts : l.startsExpression = false := by rw [startsExpression, hcurrency]
      rw [units?, hstarts, if_neg Bool.false_ne_true, if_pos hcurrency]
      exact (currency_yields h).bind fun l' hl' => .pure hl'

/-- A printed price is read back at the end of the line. -/
theorem price?_yields {price : Option Price} (h : l.words = price.elim [] Price.words) :
    Yields l.price? (price.map Price.readBack) [] := by
  have hkind := nextKind?_of_words l
  rw [h] at hkind
  have htail {cs : List Char} {a : Amount} {kind : Token.Kind}
      (h : l.words = (kind, cs) :: a.words) :
      (l.withTokens l.tokens.tail).words = a.words ++ [] := by
    obtain ⟨t, ts, htokens, -, -, hrest⟩ := of_words_cons h
    rw [htokens, List.tail_cons, hrest, List.append_nil]
  cases price with
  | none =>
    rw [price?, hkind]
    exact .pure h
  | some price =>
    cases price with
    | unit a =>
      rw [price?, hkind]
      exact (amount_yields (htail h)).bind fun l' hl' => .pure hl'
    | total a =>
      rw [price?, hkind]
      exact (amount_yields (htail h)).bind fun l' hl' => .pure hl'

/-! ## Costs -/

/-- Reading the components of a cost looks at the first token. -/
theorem costComponents_eq {t : Token} {ts : List Token} (h : l.tokens = t :: ts) (double : Bool)
    (cost : Cost) :
    l.costComponents double cost =
      if t.kind = (if double then .doubleRightBrace else .rightBrace) then
        return (cost, l.withTokens ts)
      else if l.startsExpression then do
        let (n, ⟨rest, _⟩) ← l.expression
        rest.costComponents double
          (if double then { cost with total := some n } else { cost with perUnit := some n })
      else
        match t.kind with
        | .comma | .star => (l.withTokens ts).costComponents double cost
        | .hash => do
          let (n, ⟨rest, _⟩) ← (l.withTokens ts).expression
          rest.costComponents double { cost with total := some n }
        | .currency =>
          (l.withTokens ts).costComponents double { cost with currency := some t.text }
        | .date => do
          let d ← dateValue t
          (l.withTokens ts).costComponents double { cost with date := some d }
        | .string =>
          (l.withTokens ts).costComponents double { cost with label := some (stringValue t) }
        | _ => throw (l.unexpected .costComponent) := by
  rw [costComponents]
  split
  · simp_all
  · rename_i t' ts' h'
    obtain ⟨rfl, rfl⟩ := List.cons.inj (h.symm.trans h')
    rfl

/-- What stands after a part of a cost: a comma or the closing brace. -/
def EndsPart (ws : List Word) : Prop := ∀ w ∈ ws.head?, w.1 = .comma ∨ w.1 = .rightBrace

/-- Reading the words of a part puts it into the cost. -/
def ReadsPart (part : Cost.Part) : Prop :=
  ∀ (cost : Cost) (l : Line) (ws : List Word), l.words = part.words ++ ws → EndsPart ws →
    ∃ l' : Line, l'.words = ws ∧
      l.costComponents false cost = l'.costComponents false (part.put cost)

/-- The text of a string without backslashes is what stands between its quotes. -/
theorem stringValue_of_text {t : Token} {s : String} (h : t.text.toList = quoted s)
    (hplain : Plain s.toList) : stringValue t = s := by
  have hunescape {cs : List Char} (hcs : Plain cs) : unescape cs = cs := by
    induction cs with
    | nil => rfl
    | cons c cs ih =>
      obtain ⟨hc, hcs⟩ := List.forall_mem_cons.1 hcs
      rw [unescape, ih hcs]
      · exact fun hslash _ => hc.2 hslash
      · exact fun _ _ hslash _ => hc.2 hslash
  have hinside : (quoted s).tail.dropLast = s.toList := by simp [quoted]
  rw [stringValue, h, hinside, hunescape hplain, String.ofList_toList]

/-- The values of strings are told from how each of them is written. -/
theorem map_stringValue {ts : List Token} {strings : List String} {chars : String → List Char}
    (h : ts.map Token.word = strings.map fun s => (.string, chars s))
    (hchars : ∀ s ∈ strings, ∀ t : Token, t.text.toList = chars s → stringValue t = s) :
    ts.map stringValue = strings := by
  induction strings generalizing ts with
  | nil =>
    obtain rfl := List.map_eq_nil_iff.1 h
    rfl
  | cons s strings ih =>
    obtain ⟨t, ts, rfl, hword, hrest⟩ := List.map_eq_cons_iff.1 h
    obtain ⟨hs, hstrings⟩ := List.forall_mem_cons.1 hchars
    rw [List.map_cons, hs t (congrArg Prod.snd hword), ih hrest hstrings]

/-- Reading a component that does not start with a number. -/
theorem costComponents_of_words (h : l.words = (kind, cs) :: ws)
    (hkind : kind ∈ [.comma, .hash, .currency, .date, .string]) (cost : Cost) :
    ∃ t ts, t.kind = kind ∧ t.text.toList = cs ∧ (l.withTokens ts).words = ws ∧
      l.costComponents false cost =
        match kind with
        | .comma | .star => (l.withTokens ts).costComponents false cost
        | .hash => do
          let (n, ⟨rest, _⟩) ← (l.withTokens ts).expression
          rest.costComponents false { cost with total := some n }
        | .currency =>
          (l.withTokens ts).costComponents false { cost with currency := some t.text }
        | .date => do
          let d ← dateValue t
          (l.withTokens ts).costComponents false { cost with date := some d }
        | .string =>
          (l.withTokens ts).costComponents false { cost with label := some (stringValue t) }
        | _ => throw (l.unexpected .costComponent) := by
  have hbrace : kind ≠ .rightBrace := by
    rintro rfl
    exact absurd hkind (by decide)
  have hstarts : l.startsExpression = false := by
    rw [startsExpression, nextKind?_of_words, h]
    obtain rfl | rfl | rfl | rfl | rfl := by simpa using hkind
    all_goals rfl
  obtain ⟨t, ts, htokens, rfl, htext, hrest⟩ := of_words_cons h
  refine ⟨t, ts, rfl, htext, hrest, ?_⟩
  rw [costComponents_eq htokens]
  simp only [hbrace, hstarts, Bool.false_eq_true, if_false]

theorem number_reads_part {n : Decimal} (h : l.words = (.number, n.toChars) :: ws)
    (hends : EndsNumber ws) (cost : Cost) :
    ∃ l' : Line, l'.words = ws ∧ l.costComponents false cost =
      l'.costComponents false { cost with perUnit := some n.readBack } := by
  obtain ⟨t, ts, htokens, hkind, -, -⟩ := of_words_cons h
  obtain ⟨rest, hread, hrest⟩ := expression_yields h hends
  refine ⟨rest.val, hrest, ?_⟩
  rw [costComponents_eq htokens, hkind, startsExpression_of_words h, hread]
  rfl

theorem currency_reads_part {c : Currency} (h : l.words = (.currency, c.toList) :: ws)
    (cost : Cost) :
    ∃ l' : Line, l'.words = ws ∧
      l.costComponents false cost = l'.costComponents false { cost with currency := some c } := by
  obtain ⟨t, ts, -, htext, hrest, hread⟩ := costComponents_of_words h (by decide) cost
  obtain rfl : t.text = c := String.toList_inj.1 htext
  exact ⟨l.withTokens ts, hrest, hread⟩

/-- Reading a number and a currency puts both into the cost. -/
theorem readsPart_of_amount {n : Decimal} {c : Currency} {chars : List Char} :
    ReadsPart {
      chars
      words := (⟨n, c⟩ : Amount).words
      put := fun cost => { cost with perUnit := some n.readBack, currency := some c } } := by
  intro cost l ws h _
  obtain ⟨l₁, hl₁, hnumber⟩ := number_reads_part h (by rintro w ⟨⟩; simp) cost
  obtain ⟨l₂, hl₂, hcurrency⟩ := currency_reads_part hl₁ { cost with perUnit := some n.readBack }
  exact ⟨l₂, hl₂, hnumber.trans hcurrency⟩

/-- Every part of a printable cost is read back. -/
theorem readsPart_of_mem {cost : Cost} (hprintable : cost.Printable) {part : Cost.Part}
    (h : part ∈ cost.parts) : ReadsPart part := by
  obtain ⟨perUnit, total, currency, date, label⟩ := cost
  simp only [Cost.parts, List.mem_append, List.mem_map, Option.mem_toList] at h
  obtain h | ⟨d, -, rfl⟩ | ⟨s, hs, rfl⟩ := h
  · unfold Cost.valuePart? at h
    split at h
    · obtain rfl := Option.some.inj h
      exact readsPart_of_amount
    · next n c _ _ _ =>
      obtain rfl := Option.some.inj h
      intro cost l ws h _
      obtain ⟨t, ts, -, -, hrest, hhash⟩ := costComponents_of_words h (by decide) cost
      obtain ⟨rest, hnumber, hrest⟩ := expression_yields hrest (by rintro w ⟨⟩; simp)
      obtain ⟨l', hl', hcurrency⟩ :=
        currency_reads_part hrest { cost with total := some n.readBack }
      refine ⟨l', hl', ?_⟩
      rw [hhash]
      simp only [hnumber, pure_bind]
      exact hcurrency
    · next c _ _ _ =>
      obtain rfl := Option.some.inj h
      exact fun cost l ws h _ => currency_reads_part h cost
    · cases h
  · intro cost l ws h _
    obtain ⟨t, ts, -, htext, hrest, hread⟩ := costComponents_of_words h (by decide) cost
    refine ⟨l.withTokens ts, hrest, ?_⟩
    rw [hread]
    simp only [dateValue_of_text htext, pure_bind]
    rfl
  · intro cost l ws h _
    obtain ⟨t, ts, -, htext, hrest, hread⟩ := costComponents_of_words h (by decide) cost
    refine ⟨l.withTokens ts, hrest, ?_⟩
    rw [hread]
    simp only [stringValue_of_text htext (hprintable.label s hs)]
    rfl

/-- Reading the parts of a cost and the closing brace. -/
theorem costComponents_of_parts {parts : List Cost.Part} (h : ∀ part ∈ parts, ReadsPart part)
    {cost : Cost} (hl : l.words = ([(.comma, [','])] : List Word).intercalate
      (parts.map Cost.Part.words) ++ (.rightBrace, ['\x7d']) :: ws) :
    Yields (l.costComponents false cost) (parts.foldl (fun cost part => part.put cost) cost)
      ws := by
  induction parts generalizing cost l with
  | nil =>
    obtain ⟨t, ts, htokens, hkind, -, hrest⟩ := of_words_cons hl
    rw [costComponents_eq htokens, hkind]
    exact .pure hrest
  | cons part parts ih =>
    obtain ⟨hpart, hparts⟩ := List.forall_mem_cons.1 h
    cases parts with
    | nil =>
      obtain ⟨l', hl', hput⟩ := hpart cost l ((.rightBrace, ['\x7d']) :: ws)
        (by simpa using hl) (by rintro w ⟨⟩; simp)
      rw [hput]
      exact ih hparts hl'
    | cons next parts =>
      rw [List.map_cons, List.map_cons, List.intercalate_cons_cons, List.append_assoc,
        List.append_assoc] at hl
      obtain ⟨l', hl', hput⟩ := hpart cost l _ hl (by rintro w ⟨⟩; simp)
      obtain ⟨t, ts, -, -, hrest, hcomma⟩ := costComponents_of_words hl' (by decide) (part.put cost)
      rw [hput, hcomma]
      exact ih hparts hrest

/-- A printable cost is put together from its parts. -/
theorem foldl_parts {cost : Cost} (h : cost.Printable) :
    cost.parts.foldl (fun cost part => part.put cost) {} = cost.readBack := by
  obtain ⟨perUnit, total, currency, date, label⟩ := cost
  have hnumber := h.number
  cases perUnit <;> cases total <;> cases currency <;> cases date <;> cases label
  all_goals first | rfl | simp at hnumber

/-- A printed cost is read back. -/
theorem cost?_yields {cost : Option Cost} (hprintable : ∀ c ∈ cost, c.Printable)
    (h : l.words = cost.elim [] Cost.words ++ ws)
    (hends : ∀ w ∈ ws.head?, w.1 = .at ∨ w.1 = .doubleAt) :
    Yields l.cost? (cost.map Cost.readBack) ws := by
  have hnext := nextKind?_of_words l
  rw [h] at hnext
  cases cost with
  | none =>
    rw [cost?, hnext]
    cases ws with
    | nil => exact .pure h
    | cons w ws =>
      obtain ⟨kind, cs⟩ := w
      obtain rfl | rfl := hends _ rfl
      · exact .pure h
      · exact .pure h
  | some c =>
    have hparts : ∀ part ∈ c.parts, ReadsPart part := fun part =>
      readsPart_of_mem (hprintable c rfl)
    rw [Option.elim_some, Cost.words, List.append_assoc] at h
    obtain ⟨t, ts, htokens, -, -, hrest⟩ := of_words_cons h
    rw [cost?, hnext, htokens]
    refine (costComponents_of_parts hparts hrest).bind fun l' hl' => ?_
    rw [foldl_parts (hprintable c rfl)]
    exact .pure hl'

/-! ## Postings -/

/-- The token that writes a flag flags a posting, with this flag. -/
theorem flagValue_of_word {t : Token} {flag : Char} (hkind : t.kind = flagKind flag)
    (htext : t.text.toList = [flag]) : t.isPostingFlag ∧ flagValue t = flag := by
  unfold flagKind at hkind
  rw [Token.isPostingFlag, flagValue]
  split at hkind
  · next hstar => simp [hkind, hstar, Flag.okay]
  · split at hkind
    · next hwarning => simp [hkind, hwarning, Flag.warning]
    · simp [hkind, htext]

theorem postingFlag?_of_words {flag : Option Char}
    (h : l.words = (flag.toList.map fun flag => (flagKind flag, [flag])) ++ (.account, cs) :: ws) :
    ∃ l' : Line, l'.words = (.account, cs) :: ws ∧ l.postingFlag? = (flag, l') := by
  cases flag with
  | none =>
    obtain ⟨t, ts, htokens, hkind, -, -⟩ := of_words_cons h
    refine ⟨l, h, ?_⟩
    rw [postingFlag?, htokens]
    simp only [Token.isPostingFlag, hkind, Bool.false_eq_true, if_false]
  | some flag =>
    obtain ⟨t, ts, htokens, hkind, htext, hrest⟩ := of_words_cons h
    obtain ⟨hposting, hflag⟩ := flagValue_of_word hkind htext
    refine ⟨l.withTokens ts, hrest, ?_⟩
    rw [postingFlag?, htokens]
    simp only [if_pos hposting, hflag]

/-- The words of a posting are read back as the posting. -/
theorem posting_of_words {p : Posting} (hprintable : ∀ c ∈ p.cost, c.Printable)
    (h : l.words = p.words) : ∃ metadata, l.posting = pure (p.readBack metadata) := by
  have hprice : ∀ w ∈ (p.price.elim [] Price.words).head?, w.1 = .at ∨ w.1 = .doubleAt := by
    obtain _ | a | a := p.price
    · rintro w ⟨⟩
    · rintro w ⟨⟩
      exact .inl rfl
    · rintro w ⟨⟩
      exact .inr rfl
  have hcost : EndsUnits (p.cost.elim [] Cost.words ++ p.price.elim [] Price.words) := by
    cases p.cost with
    | none => exact fun w hw => .inr (hprice w hw)
    | some c =>
      rintro w ⟨⟩
      exact .inl rfl
  obtain ⟨l₁, hl₁, hflag⟩ := postingFlag?_of_words h
  obtain ⟨l₂, haccount, hl₂⟩ := account_yields hl₁
  obtain ⟨l₃, hunits, hl₃⟩ := units?_yields hl₂ hcost
  obtain ⟨l₄, hcost, hl₄⟩ := cost?_yields hprintable hl₃ hprice
  obtain ⟨l₅, hprice, hl₅⟩ := price?_yields hl₄
  refine ⟨({} : Metadata).setLine (l.tokens.head?.elim 0 (·.line)), ?_⟩
  rw [posting, hflag]
  simp only [haccount, hunits, hcost, hprice, finish_of_words hl₅, pure_bind]
  rfl

end Line

end DoubleEntry
