import DoubleEntry.Proofs.Journal.JoinedSigns

/-!
# Texts of formulas

A formula can be written without blanks, or with a blank on each side of every operator.

* `Layout.text`: the text of a formula; `Layout.scans_text`: the words that it is scanned as.
* `Quantity.text`, `PostingForm.text`: the texts of amounts and postings with formulas.
* `PostingForm.scans_text`: the words of a posting.
-/

namespace DoubleEntry

open Token

/-! ## Symbols -/

/-- One to three digits, with or without a minus sign in front. -/
def IsShortNumber (cs : List Char) : Prop :=
  ∃ digits, (cs = digits ∨ cs = '-' :: digits) ∧ (∀ c ∈ digits, c.isDigit) ∧ digits ≠ [] ∧
    digits.length ≤ 3

/-- The signs and the parentheses of formulas. -/
def signWords : List Word :=
  [(.plus, ['+']), (.minus, ['-']), (.star, ['*']), (.slash, ['/']), (.leftParen, ['(']),
    (.rightParen, [')'])]

/-- The words that formulas are written with: short numbers, signs and parentheses. -/
def IsSymbol (w : Word) : Prop := w.1 = .number ∧ IsShortNumber w.2 ∨ w ∈ signWords

/-- The characters that come after a number. -/
def afterNumber : List Char := [' ', '+', '-', '*', '/', '(', ')']

namespace IsSymbol

variable {w : Word}

/-- A symbol begins with a digit if it is a number without a sign, and with a sign otherwise. -/
theorem begins (h : IsSymbol w) : ∃ c cs, w.2 = c :: cs ∧
    (isUnsignedWord w ∧ c.isDigit ∨ ¬isUnsignedWord w ∧ c ∈ afterNumber) := by
  by_cases hunsigned : isUnsignedWord w
  · obtain ⟨-, c, cs, hcs, hdigit⟩ := isUnsignedWord_iff.1 hunsigned
    exact ⟨c, cs, hcs, .inl ⟨hunsigned, hdigit⟩⟩
  obtain ⟨hkind, digits, hcs | hcs, hdigits, hne, -⟩ | hsign := h
  · obtain ⟨c, tail, rfl⟩ := List.exists_cons_of_ne_nil hne
    have hdigit := hdigits c List.mem_cons_self
    exact absurd (isUnsignedWord_iff.2 ⟨hkind, c, tail, hcs, hdigit⟩) hunsigned
  · exact ⟨'-', digits, hcs, .inr ⟨hunsigned, by decide⟩⟩
  · have hall : ∀ v ∈ signWords, ∃ c, v.2 = [c] ∧ c ∈ afterNumber := by
      simp only [signWords, List.forall_mem_cons]
      and_intros
      all_goals
        first
        | exact List.forall_mem_nil _
        | exact ⟨_, rfl, by decide⟩
    obtain ⟨c, hcs, hc⟩ := hall w hsign
    exact ⟨c, [], hcs, .inr ⟨hunsigned, hc⟩⟩

/-- A number without a sign is a symbol with a minus sign too. -/
theorem short_of_unsigned (h : IsSymbol w) (hunsigned : isUnsignedWord w) :
    IsShortNumber ('-' :: w.2) := by
  obtain ⟨hkind, c, cs, hcs, hdigit⟩ := isUnsignedWord_iff.1 hunsigned
  obtain ⟨-, digits, hw | hw, hdigits, hne, hlength⟩ | hsign := h
  · exact ⟨digits, .inr (by rw [hw]), hdigits, hne, hlength⟩
  · obtain ⟨rfl, -⟩ := List.cons.inj (hcs.symm.trans hw)
    cases hdigit
  · exact absurd hkind ((by decide : ∀ v ∈ signWords, v.1 ≠ .number) w hsign)

theorem eq_of_minus (h : IsSymbol w) (hminus : w.1 = .minus) : w = (.minus, ['-']) := by
  obtain ⟨hkind, -⟩ | hsign := h
  · rw [hminus] at hkind
    cases hkind
  · exact (by decide : ∀ v ∈ signWords, v.1 = .minus → v = (.minus, ['-'])) w hsign hminus

end IsSymbol

namespace Token

variable {digits more : List Char} {w : Word}

theorem numberLength_digits (hdigits : ∀ c ∈ digits, c.isDigit) (hmore : Follow afterNumber more) :
    numberLength (digits ++ more) = (digits.length, false) := by
  have hcount : countWhile Unicode.isDecimalDigit (digits ++ more) = digits.length :=
    countWhile_append (fun c hc => isDecimalDigit_of_isDigit (hdigits c hc)) (hmore.not rfl)
  have hgroups : commaGroups more = (0, false) :=
    commaGroups_eq fun c hc => by
      rintro rfl
      exact absurd (hmore ',' hc) (by decide)
  have hfraction : fractionLength more = 0 :=
    fractionLength_eq_zero fun c hc => by
      rintro rfl
      exact absurd (hmore '.' hc) (by decide)
  simp [numberLength, hcount, hgroups, hfraction]

/-- With less than four digits there is no year. -/
theorem dateLength?_digits (hlength : digits.length ≤ 3) (hmore : Follow afterNumber more) :
    dateLength? (digits ++ more) = none := by
  have hcount : ((digits ++ more).take 4).countP Unicode.isDecimalDigit ≠ 4 := by
    obtain ⟨n, hn⟩ := Nat.exists_eq_add_of_le hlength
    have hrest : (more.take (n + 1)).countP Unicode.isDecimalDigit ≤ n := by
      cases more with
      | nil => simp
      | cons c more =>
        have hc : Unicode.isDecimalDigit c = false := hmore.not rfl c rfl
        rw [List.take_succ_cons, List.countP_cons_of_neg (by simp [hc])]
        exact List.countP_le_length.trans (List.length_take_le _ _)
    have hfirst := List.countP_le_length (p := Unicode.isDecimalDigit) (l := digits)
    rw [show 4 = digits.length + (n + 1) by omega, List.take_length_add_append, List.countP_append]
    omega
  rw [dateLength?_eq, if_pos hcount]

theorem readAs_digits (hdigits : ∀ c ∈ digits, c.isDigit) (hne : digits ≠ [])
    (hlength : digits.length ≤ 3) (hmore : Follow afterNumber more) :
    ReadAs .number digits more := by
  have hdate := dateLength?_digits hlength hmore
  have hnumber := numberLength_digits hdigits hmore
  obtain ⟨c, tail, rfl⟩ := List.exists_cons_of_ne_nil hne
  have hdigit := hdigits c List.mem_cons_self
  rw [List.cons_append] at hdate hnumber
  refine ⟨c, tail, rfl, isBlank_of_isDigit hdigit, ?_⟩
  rw [lexeme_of_isDecimalDigit (isDecimalDigit_of_isDigit hdigit), hdate, hnumber]
  rfl

theorem readAs_minus_digits (hdigits : ∀ c ∈ digits, c.isDigit) (hne : digits ≠ [])
    (hmore : Follow afterNumber more) : ReadAs .number ('-' :: digits) more := by
  have hnumber := numberLength_digits hdigits hmore
  obtain ⟨c, tail, rfl⟩ := List.exists_cons_of_ne_nil hne
  have hdigit := isDecimalDigit_of_isDigit (hdigits c List.mem_cons_self)
  have hminus : Unicode.isDecimalDigit '-' = false := rfl
  refine ⟨'-', _, rfl, rfl, ?_⟩
  rw [List.cons_append] at hnumber ⊢
  simp [lexeme, hminus, hdigit, hnumber]

theorem readAs_minus (hmore : ∀ c ∈ more.head?, Unicode.isDecimalDigit c = false) :
    ReadAs .minus ['-'] more := by
  have hminus : Unicode.isDecimalDigit '-' = false := rfl
  refine ⟨'-', [], rfl, rfl, ?_⟩
  cases more with
  | nil => simp [lexeme, hminus]
  | cons c more => simp [lexeme, hminus, hmore c rfl]

/-- A symbol is one word in front of what may follow it. -/
theorem readAs_symbol (h : IsSymbol w) (hnumber : w.1 = .number → Follow afterNumber more)
    (hminus : w.1 = .minus → ∀ c ∈ more.head?, Unicode.isDecimalDigit c = false) :
    ReadAs w.1 w.2 more := by
  obtain ⟨hkind, digits, hcs, hdigits, hne, hlength⟩ | hsign := h
  · rw [hkind]
    obtain hcs | hcs := hcs
    · rw [hcs]
      exact readAs_digits hdigits hne hlength (hnumber hkind)
    · rw [hcs]
      exact readAs_minus_digits hdigits hne (hnumber hkind)
  · simp only [signWords, List.mem_cons, List.not_mem_nil, or_false] at hsign
    obtain rfl | rfl | rfl | rfl | rfl | rfl := hsign
    · exact ⟨'+', [], rfl, rfl, rfl⟩
    · exact readAs_minus (hminus rfl)
    all_goals exact ⟨_, [], rfl, rfl, rfl⟩

/-- One symbol in front of others. -/
theorem scans_symbol {ws : List Word} (h : IsSymbol w)
    (hnumber : w.1 = .number → Follow afterNumber more)
    (hminus : w.1 = .minus → ∀ c ∈ more.head?, Unicode.isDecimalDigit c = false)
    (hmore : Scans false more ws) : Scans false (w.2 ++ more) (w :: ws) := by
  have hkind : decide (w.1 = .newline) = false := by
    obtain ⟨hkind, -⟩ | hsign := h
    · simp [hkind]
    · exact (by decide : ∀ v ∈ signWords, decide (v.1 = .newline) = false) w hsign
  exact (readAs_symbol h hnumber hminus).scans (hkind ▸ hmore)

end Token

/-! ## Formulas -/

/-- How a formula is written: without blanks, or with a blank on each side of every operator. -/
inductive Layout where
  | tight | spaced

namespace Layout

/-- A symbol and its blanks. -/
def piece (layout : Layout) (w : Word) : List Char :=
  match layout with
  | tight => w.2
  | spaced => if w.1 ∈ Line.operators then ' ' :: w.2 ++ [' '] else w.2

/-- The text of some symbols. -/
def text (layout : Layout) (symbols : List Word) : List Char := symbols.flatMap layout.piece

/-- The words of some symbols in front of others. -/
def words (layout : Layout) (symbols ws : List Word) : List Word :=
  match layout with
  | tight => joined symbols ws
  | spaced => symbols ++ ws

variable {symbols ws : List Word} {w : Word} {more : List Char}

/-- No number comes right after another one. -/
def NumbersApart (symbols : List Word) : Prop :=
  symbols.IsChain fun v w => v.1 = .number → w.1 ≠ .number

theorem follow_text (layout : Layout) (hsymbols : ∀ w ∈ symbols, IsSymbol w)
    (hhead : ∀ w ∈ symbols.head?, w.1 ≠ .number) :
    Follow afterNumber (layout.text symbols ++ ' ' :: more) := by
  cases symbols with
  | nil => exact follow_blank _ (by decide)
  | cons w symbols =>
    obtain ⟨hnumber, -⟩ | hsign := hsymbols w List.mem_cons_self
    · exact absurd hnumber (hhead w rfl)
    · simp only [signWords, List.mem_cons, List.not_mem_nil, or_false] at hsign
      obtain rfl | rfl | rfl | rfl | rfl | rfl := hsign
      all_goals
        cases layout
        all_goals
          rintro c ⟨⟩
          decide

theorem NumbersApart.tail (h : NumbersApart (w :: symbols)) : NumbersApart symbols :=
  (List.isChain_cons.1 h).2

/-- What comes after a number. -/
theorem NumbersApart.follow_text (h : NumbersApart (w :: symbols)) (layout : Layout)
    (hsymbols : ∀ v ∈ symbols, IsSymbol v) (hw : w.1 = .number) :
    Follow afterNumber (layout.text symbols ++ ' ' :: more) :=
  Layout.follow_text layout hsymbols fun v hv => (List.isChain_cons.1 h).1 v hv hw

/-- With blanks around the operators every symbol is a word of its own. -/
theorem scans_spaced (hsymbols : ∀ w ∈ symbols, IsSymbol w) (happart : NumbersApart symbols)
    (hmore : Scans false (' ' :: more) ws) :
    Scans false (spaced.text symbols ++ ' ' :: more) (symbols ++ ws) := by
  induction symbols with
  | nil => exact hmore
  | cons w symbols ih =>
    obtain ⟨hw, hsymbols⟩ := List.forall_mem_cons.1 hsymbols
    have hrest := ih hsymbols happart.tail
    rw [text, List.flatMap_cons, ← text, List.append_assoc]
    by_cases hoperator : w.1 ∈ Line.operators
    · have hpiece : spaced.piece w = ' ' :: w.2 ++ [' '] := if_pos hoperator
      rw [hpiece, List.append_assoc]
      refine (scans_symbol hw (fun _ => ?_) (fun _ => ?_) hrest.blank).blank
      · exact follow_blank _ (by decide)
      · rintro c ⟨⟩
        rfl
    · have hpiece : spaced.piece w = w.2 := if_neg hoperator
      rw [hpiece]
      refine scans_symbol hw (happart.follow_text _ hsymbols) (fun hminus => ?_) hrest
      exact absurd (hminus ▸ by decide) hoperator

/-- One symbol without blanks in front of others: if it takes the number behind it along, then what
follows that number matters. -/
theorem scans_tight_cons (hw : IsSymbol w) (hsymbols : ∀ v ∈ symbols, IsSymbol v)
    (happart : NumbersApart (w :: symbols)) (hws : ∀ v ∈ ws.head?, ¬isUnsignedWord v)
    (hrest : Scans false (tight.text symbols ++ ' ' :: more) (joined symbols ws))
    (htail : Scans false (tight.text symbols.tail ++ ' ' :: more) (joined symbols.tail ws)) :
    Scans false (tight.text (w :: symbols) ++ ' ' :: more) (joined (w :: symbols) ws) := by
  rw [text, List.flatMap_cons, ← text, List.append_assoc, joined_cons]
  change Scans false (w.2 ++ _) _
  by_cases hjoin : w.1 = .minus ∧ ∃ v ∈ (joined symbols ws).head?, isUnsignedWord v
  · obtain ⟨hminus, hhead⟩ := hjoin
    cases symbols with
    | nil =>
      obtain ⟨v, hv, hunsigned⟩ := hhead
      exact absurd hunsigned (hws v hv)
    | cons u symbols =>
      have hunsigned := unsigned_head_joined.1 hhead
      have hnumber := (isUnsignedWord_iff.1 hunsigned).1
      obtain ⟨hu, hsymbols⟩ := List.forall_mem_cons.1 hsymbols
      have hne : u.1 ≠ .minus := by simp [hnumber]
      rw [joined_cons, joinWord_of_ne hne, joinWord, if_pos ⟨hminus, hunsigned⟩,
        hw.eq_of_minus hminus, text, List.flatMap_cons, ← text, List.append_assoc]
      have hsigned : IsSymbol (.number, '-' :: u.2) := .inl ⟨rfl, hu.short_of_unsigned hunsigned⟩
      refine scans_symbol hsigned (fun _ => ?_) (fun h => ?_) htail
      · exact happart.tail.follow_text _ hsymbols hnumber
      · cases h
  · rw [joinWord_of_not hjoin]
    refine scans_symbol hw (happart.follow_text _ hsymbols) (fun hminus => ?_) hrest
    cases symbols with
    | nil =>
      rintro c ⟨⟩
      rfl
    | cons u symbols =>
      have hunsigned : ¬isUnsignedWord u := fun h => hjoin ⟨hminus, unsigned_head_joined.2 h⟩
      obtain ⟨c, cs, hu, hc⟩ := (hsymbols u List.mem_cons_self).begins
      have hc := (hc.resolve_left fun h => hunsigned h.1).2
      have hnone : afterNumber.all fun d => Unicode.isDecimalDigit d = false := by decide
      rw [text, List.flatMap_cons, ← text, piece, hu]
      rintro _ ⟨⟩
      exact List.all_iff_forall_prop.1 hnone c hc

/-- Without blanks a number has taken its sign along. -/
theorem scans_tight (hsymbols : ∀ w ∈ symbols, IsSymbol w) (happart : NumbersApart symbols)
    (hws : ∀ w ∈ ws.head?, ¬isUnsignedWord w) (hmore : Scans false (' ' :: more) ws) :
    Scans false (tight.text symbols ++ ' ' :: more) (joined symbols ws) := by
  -- The number that a sign takes along is passed over, so what follows it is in the induction too.
  have hboth : Scans false (tight.text symbols ++ ' ' :: more) (joined symbols ws) ∧
      Scans false (tight.text symbols.tail ++ ' ' :: more) (joined symbols.tail ws) := by
    induction symbols with
    | nil => exact ⟨hmore, hmore⟩
    | cons w symbols ih =>
      obtain ⟨hw, hsymbols⟩ := List.forall_mem_cons.1 hsymbols
      obtain ⟨hrest, htail⟩ := ih hsymbols happart.tail
      exact ⟨scans_tight_cons hw hsymbols happart hws hrest htail, hrest⟩
  exact hboth.1

/-- The text of a formula in front of a blank. -/
theorem scans_text (layout : Layout) (hsymbols : ∀ w ∈ symbols, IsSymbol w)
    (happart : NumbersApart symbols) (hws : ∀ w ∈ ws.head?, ¬isUnsignedWord w)
    (hmore : Scans false (' ' :: more) ws) :
    Scans false (layout.text symbols ++ ' ' :: more) (layout.words symbols ws) := by
  cases layout with
  | tight => exact scans_tight hsymbols happart hws hmore
  | spaced => exact scans_spaced hsymbols happart hmore

theorem words_append (layout : Layout) (symbols : List Word) (w : Word) (ws ws' : List Word) :
    layout.words symbols (w :: ws) ++ ws' = layout.words symbols (w :: ws ++ ws') := by
  cases layout with
  | tight => exact joined_append_right symbols (List.cons_ne_nil w ws) ws'
  | spaced => exact List.append_assoc _ _ _

end Layout

theorem Formula.Fits.numbersApart {level : Level} {e : Formula Word} (he : e.Fits Prod.fst level) :
    Layout.NumbersApart e.symbols := by
  have hbinary {e f : Formula Word} {sign : Word} (hsign : sign.1 ≠ .number)
      (he : Layout.NumbersApart e.symbols) (hf : Layout.NumbersApart f.symbols) :
      Layout.NumbersApart (binary e sign f).symbols :=
    List.isChain_append.2 ⟨he, List.isChain_cons.2 ⟨fun v _ h => absurd h hsign, hf⟩,
      fun v _ w hw _ => by obtain rfl := Option.some.inj hw; exact hsign⟩
  induction he with
  | number _ => exact List.isChain_singleton _
  | @group left right e hleft _ hright ih =>
    have hne : left.1 ≠ .number ∧ right.1 ≠ .number := by simp [hleft, hright]
    exact List.isChain_append.2 ⟨List.isChain_cons.2 ⟨fun v _ h => absurd h hne.1, ih⟩,
      List.isChain_singleton _, fun v _ w hw _ => by obtain rfl := Option.some.inj hw; exact hne.2⟩
  | @signed sign e hsign _ ih =>
    have hne : sign.1 ≠ .number := by obtain hsign | hsign := hsign <;> simp [hsign]
    exact List.isChain_cons.2 ⟨fun v _ h => absurd h hne, ih⟩
  | ofFactor _ ih | ofProduct _ ih => exact ih
  | product _ hsign _ ihe ihf | sum _ hsign _ ihe ihf =>
    exact hbinary (by obtain hsign | hsign := hsign <;> simp [hsign]) ihe ihf

/-! ## Quantities -/

namespace Quantity

/-- The formula has the symbols and the currency is one. -/
structure IsWritten (q : Quantity) : Prop where
  fits : q.Fits
  symbols : ∀ w ∈ q.formula.symbols, IsSymbol w
  currency : IsCurrency q.currency.toList

/-- The text of the quantity. -/
def text (layout : Layout) (q : Quantity) : String :=
  String.ofList (layout.text q.formula.symbols) ++ " " ++ q.currency

/-- The words that the text is scanned as. -/
def wordsIn (layout : Layout) (q : Quantity) : List Word :=
  layout.words q.formula.symbols [(.currency, q.currency.toList)]

variable {q : Quantity} {more : List Char} {ws : List Word}

theorem toList_text (layout : Layout) (q : Quantity) :
    (q.text layout).toList = layout.text q.formula.symbols ++ ' ' :: q.currency.toList := by
  simp [text]

theorem IsWritten.scans_text (h : q.IsWritten) (layout : Layout)
    (hfollow : Follow [' ', '\n', '\x7d'] more) (hmore : Scans false more ws) :
    Scans false ((q.text layout).toList ++ more) (q.wordsIn layout ++ ws) := by
  have hcurrency : Scans false (' ' :: (q.currency.toList ++ more))
      ((.currency, q.currency.toList) :: ws) :=
    ((readAs_currency h.currency (hfollow.mono (by simp))).scans (b := false) hmore).blank
  rw [toList_text, wordsIn, Layout.words_append, List.append_assoc, List.cons_append]
  refine layout.scans_text h.symbols h.fits.numbersApart ?_ hcurrency
  rintro w ⟨⟩
  exact Bool.false_ne_true

end Quantity

/-! ## Postings -/

/-- The text of a cost. -/
def costText (double : Bool) (inside : String) : String :=
  if double then "\x7b\x7b" ++ inside ++ "\x7d\x7d" else "\x7b" ++ inside ++ "\x7d"

/-- The text of a price. -/
def priceText (double : Bool) (inside : String) : String :=
  (if double then "@@ " else "@ ") ++ inside

variable {q : Quantity} {more : List Char} {ws : List Word}

/-- A formula begins with a blank or a symbol. -/
theorem Quantity.IsWritten.begins (h : q.IsWritten) (layout : Layout) :
    ∃ c cs, (q.text layout).toList = c :: cs ∧ c ≠ '\x7b' := by
  obtain ⟨w, rest, hsymbols, -⟩ := h.fits.begins
  have hw := h.symbols w (by rw [hsymbols]; exact List.mem_cons_self)
  obtain ⟨c, cs, hpiece, hne⟩ : ∃ c cs, layout.piece w = c :: cs ∧ c ≠ '\x7b' := by
    obtain ⟨c, cs, hcs, hc⟩ := hw.begins
    have hne : c ≠ '\x7b' := by
      rintro rfl
      obtain ⟨-, hdigit⟩ | ⟨-, hsign⟩ := hc
      · cases hdigit
      · exact absurd hsign (by decide)
    cases layout with
    | tight => exact ⟨c, cs, hcs, hne⟩
    | spaced =>
      rw [Layout.piece, hcs]
      split
      · exact ⟨' ', _, rfl, by decide⟩
      · exact ⟨c, cs, rfl, hne⟩
  rw [Quantity.toList_text, hsymbols, Layout.text, List.flatMap_cons, hpiece]
  exact ⟨c, _, rfl, hne⟩

theorem scans_costText (h : q.IsWritten) (layout : Layout) (double : Bool)
    (hfollow : Follow [' ', '\n'] more) (hmore : Scans false more ws) :
    Scans false ((costText double (q.text layout)).toList ++ more)
      (Line.costWords double (q.wordsIn layout) ++ ws) := by
  have hbrace : Follow [' ', '\n', '\x7d'] ['\x7d'] := by
    rintro c ⟨⟩
    decide
  cases double with
  | true =>
    have hclose := (readAs_doubleRightBrace more).scans (b := false) hmore
    have hinside := h.scans_text layout (by rintro c ⟨⟩; decide) hclose
    simpa [costText, Line.costWords] using (readAs_doubleLeftBrace _).scans (b := false) hinside
  | false =>
    have hclose := (readAs_rightBrace hfollow).scans (b := false) hmore
    have hinside := h.scans_text layout (by rintro c ⟨⟩; decide) hclose
    obtain ⟨c, cs, hbegins, hne⟩ := h.begins layout
    have hopen : ∀ d ∈ ((q.text layout).toList ++ (['\x7d'] ++ more)).head?, d ≠ '\x7b' := by
      rw [hbegins]
      rintro d ⟨⟩
      exact hne
    simpa [costText, Line.costWords] using (readAs_leftBrace hopen).scans (b := false) hinside

theorem scans_priceText (h : q.IsWritten) (layout : Layout) (double : Bool)
    (hfollow : Follow [' ', '\n'] more) (hmore : Scans false more ws) :
    Scans false ((priceText double (q.text layout)).toList ++ more)
      (Line.priceWords double (q.wordsIn layout) ++ ws) := by
  have hinside := (h.scans_text layout (hfollow.mono (by simp)) hmore).blank
  cases double with
  | true => simpa [priceText, Line.priceWords] using (readAs_doubleAt _).scans (b := false) hinside
  | false => simpa [priceText, Line.priceWords] using (readAs_at _).scans (b := false) hinside

namespace PostingForm

/-- The account and the quantities of the posting are written. -/
structure IsWritten (p : PostingForm) : Prop where
  account : IsAccount p.account.toList
  quantities : ∀ q ∈ p.quantities, q.IsWritten

/-- The line of the posting. -/
def text (layout : Layout) (p : PostingForm) : String :=
  "  " ++ p.account ++ (p.units.elim "" fun q => " " ++ q.text layout) ++
    (p.cost.elim "" fun c => " " ++ costText c.1 (c.2.text layout)) ++
      p.price.elim "" fun c => " " ++ priceText c.1 (c.2.text layout)

/-- The words that the line is scanned as. -/
def wordsIn (layout : Layout) (p : PostingForm) : List Word := p.wordsOf (Quantity.wordsIn layout)

theorem scans_text {p : PostingForm} (h : p.IsWritten) (layout : Layout)
    (hfollow : Follow ['\n'] more) (hmore : Scans false more ws) :
    Scans true ((p.text layout).toList ++ more)
      ((.indent, [' ', ' ']) :: (p.wordsIn layout ++ ws)) := by
  obtain ⟨hunits, hcost, hprice⟩ := forall_mem_quantities.1 h.quantities
  have hend : Follow [' ', '\n'] more := hfollow.mono (by simp)
  have hpriceScans := scans_option
    (fun c hc => scans_priceText (hprice c hc) layout c.1 hend hmore) hmore
  have hbeforePrice := follow_option p.price
    (fun c => (priceText c.1 (c.2.text layout)).toList) hend
  have hcostScans := scans_option
    (fun c hc => scans_costText (hcost c hc) layout c.1 hbeforePrice hpriceScans) hpriceScans
  have hbeforeCost := follow_option p.cost
    (fun c => (costText c.1 (c.2.text layout)).toList) hbeforePrice
  have hunitsScans := scans_option
    (fun q hq => (hunits q hq).scans_text layout (hbeforeCost.mono (by simp)) hcostScans) hcostScans
  have hbeforeUnits := follow_option p.units (fun q => (q.text layout).toList) hbeforeCost
  have haccount := (readAs_account h.account hbeforeUnits).scans_indent (by decide) hunitsScans
  have helim {α : Type} (o : Option α) (f : α → String) :
      (o.elim "" fun a => " " ++ f a).toList = o.elim [] fun a => ' ' :: (f a).toList := by
    cases o <;> simp
  have htext : (p.text layout).toList ++ more = ' ' :: ' ' :: (p.account.toList ++
      ((p.units.elim [] fun q => ' ' :: (q.text layout).toList) ++
        ((p.cost.elim [] fun c => ' ' :: (costText c.1 (c.2.text layout)).toList) ++
          ((p.price.elim [] fun c => ' ' :: (priceText c.1 (c.2.text layout)).toList) ++
            more)))) := by
    simp only [text, String.toList_append, helim, List.append_assoc]
    rfl
  rw [htext, wordsIn, wordsOf]
  simpa using haccount

end PostingForm

end DoubleEntry
