import DoubleEntry.Proofs.Decimal.Digits
import DoubleEntry.Proofs.Journal.FormulaPlaces

/-!
# Signs joined to numbers

A minus sign directly in front of a digit is part of a number. So where a formula is written without
blanks, a sign and its number become one word; that does not matter for a sign of the number, but a
difference is no longer one.

* `joined`: words that are written without blanks.
* `Formula.join`: a formula in which the numbers have taken their signs along.
* `Formula.Joins`: a difference in a formula becomes two numbers after one another.
* `Formula.joined_symbols`, `Formula.map_readBack_result?_join`: otherwise the formula comes to the
  same, but for the signs of zeros.
* `Formula.stopsShort_of_joins`: and with such a difference the expression stops short.
-/

namespace DoubleEntry

/-! ## Words without blanks -/

/-- Whether the word is a number that begins with a digit. -/
def isUnsignedWord (w : Word) : Bool := w.1 == .number && w.2.head?.any Char.isDigit

theorem isUnsignedWord_iff {w : Word} :
    isUnsignedWord w ↔ w.1 = .number ∧ ∃ d rest, w.2 = d :: rest ∧ d.isDigit := by
  rw [isUnsignedWord]
  cases w.2 <;> simp

/-- A word directly in front of others: a number takes a minus sign along. -/
def joinWord (w : Word) : List Word → List Word
  | [] => [w]
  | v :: ws => if w.1 = .minus ∧ isUnsignedWord v then (.number, '-' :: v.2) :: ws else w :: v :: ws

/-- Some words without blanks in front of others. -/
def joined (symbols ws : List Word) : List Word := symbols.foldr joinWord ws

section Joined

variable {w : Word} {ws symbols : List Word}

theorem joinWord_of_not (h : ¬(w.1 = .minus ∧ ∃ v ∈ ws.head?, isUnsignedWord v)) :
    joinWord w ws = w :: ws := by
  cases ws with
  | nil => rfl
  | cons v ws => exact if_neg fun hjoin => h ⟨hjoin.1, v, rfl, hjoin.2⟩

/-- Only a minus sign is joined to what follows. -/
theorem joinWord_of_ne (h : w.1 ≠ .minus) : joinWord w ws = w :: ws :=
  joinWord_of_not fun hjoin => h hjoin.1

@[simp] theorem joined_nil (ws : List Word) : joined [] ws = ws := rfl

@[simp] theorem joined_cons (w : Word) (symbols ws : List Word) :
    joined (w :: symbols) ws = joinWord w (joined symbols ws) := rfl

@[simp] theorem joined_append (symbols symbols' ws : List Word) :
    joined (symbols ++ symbols') ws = joined symbols (joined symbols' ws) :=
  List.foldr_append

/-- The first word is the first symbol, or a number with a sign. -/
theorem head_joinWord (w : Word) (ws : List Word) :
    (joinWord w ws).head? = some w ∨
      w.1 = .minus ∧ ∃ cs, (joinWord w ws).head? = some (.number, '-' :: cs) := by
  cases ws with
  | nil => exact .inl rfl
  | cons v ws =>
    by_cases h : w.1 = .minus ∧ isUnsignedWord v
    · exact .inr ⟨h.1, v.2, by rw [joinWord, if_pos h]; rfl⟩
    · exact .inl (by rw [joinWord, if_neg h]; rfl)

/-- Words without blanks begin with a number without a sign if their first symbol is one. -/
theorem unsigned_head_joined :
    (∃ v ∈ (joined (w :: symbols) ws).head?, isUnsignedWord v) ↔ isUnsignedWord w := by
  rw [joined_cons]
  constructor
  · rintro ⟨v, hv, hunsigned⟩
    obtain hhead | ⟨-, cs, hhead⟩ := head_joinWord w (joined symbols ws)
    · obtain rfl := Option.some.inj (hhead.symm.trans hv)
      exact hunsigned
    · obtain rfl := Option.some.inj (hhead.symm.trans hv)
      cases hunsigned
  · intro hw
    have hne : w.1 ≠ .minus := by
      rintro hminus
      rw [isUnsignedWord, hminus] at hw
      cases hw
    exact ⟨w, by rw [joinWord_of_ne hne]; rfl, hw⟩

theorem joined_ne_nil (symbols : List Word) (hws : ws ≠ []) : joined symbols ws ≠ [] := by
  cases symbols with
  | nil => exact hws
  | cons w symbols =>
    intro hnil
    have hhead := head_joinWord w (joined symbols ws)
    rw [← joined_cons, hnil] at hhead
    obtain h | ⟨-, cs, h⟩ := hhead <;> cases h

/-- Joining looks at one word behind the symbols, and no further. -/
theorem joined_append_right (symbols : List Word) (hws : ws ≠ []) (ws' : List Word) :
    joined symbols ws ++ ws' = joined symbols (ws ++ ws') := by
  induction symbols with
  | nil => rfl
  | cons w symbols ih =>
    obtain ⟨v, rest, hcons⟩ := List.exists_cons_of_ne_nil (joined_ne_nil symbols hws)
    rw [joined_cons, joined_cons, ← ih, hcons, List.cons_append, joinWord, joinWord]
    split <;> rfl

end Joined

/-! ## Formulas whose numbers have signs -/

namespace Formula

/-- A formula with a sign in front: a number takes a minus sign along. -/
def withSign (sign : Word) : Formula Word → Formula Word
  | number w =>
    if sign.1 = .minus ∧ isUnsignedWord w then number (.number, '-' :: w.2)
    else signed sign (number w)
  | e => signed sign e

/-- The formula in which numbers have taken the minus signs in front of them along. -/
def join : Formula Word → Formula Word
  | number w => number w
  | group left e right => group left e.join right
  | signed sign e => e.join.withSign sign
  | binary e sign f => binary e.join sign f.join

/-- The sign is a minus sign, and a number without a sign follows. -/
def TakesSign (sign : Word) (f : Formula Word) : Prop :=
  sign.1 = .minus ∧ ∃ w ∈ f.symbols.head?, isUnsignedWord w

instance (sign : Word) (f : Formula Word) : Decidable (TakesSign sign f) :=
  inferInstanceAs (Decidable (_ ∧ _))

/-- There is a difference in the formula in which the minus sign is followed by a number without a
sign. -/
def Joins : Formula Word → Prop
  | number _ => False
  | group _ e _ | signed _ e => e.Joins
  | binary e sign f => e.Joins ∨ f.Joins ∨ TakesSign sign f

instance decidableJoins : (e : Formula Word) → Decidable e.Joins
  | number _ => isFalse id
  | group _ e _ | signed _ e => decidableJoins e
  | binary e sign f =>
    have := decidableJoins e
    have := decidableJoins f
    inferInstanceAs (Decidable (e.Joins ∨ f.Joins ∨ TakesSign sign f))

variable {e f : Formula Word} {sign : Word} {ws : List Word} {level : Level}

/-- A factor with a sign in front of it is a factor. -/
theorem Fits.withSign (he : e.Fits Prod.fst .factor) (hsign : sign.1 = .plus ∨ sign.1 = .minus) :
    (e.withSign sign).Fits Prod.fst .factor := by
  cases e with
  | number w =>
    rw [Formula.withSign]
    split
    · exact .number rfl
    · exact .signed hsign he
  | group left e right => exact .signed hsign he
  | signed sign' e => exact .signed hsign he
  | binary e sign' f => exact .signed hsign he

/-- Joined, a formula fits where it fitted before. -/
theorem Fits.join (he : e.Fits Prod.fst level) : e.join.Fits Prod.fst level := by
  induction he with
  | number ha => exact .number ha
  | group hleft _ hright ih => exact .group hleft ih hright
  | signed hsign _ ih => exact ih.withSign hsign
  | ofFactor _ ih => exact .ofFactor ih
  | product _ hsign _ ihe ihf => exact .product ihe hsign ihf
  | ofProduct _ ih => exact .ofProduct ih
  | sum _ hsign _ ihe ihf => exact .sum ihe hsign ihf

theorem Fits.symbols_withSign (he : e.Fits Prod.fst .factor) (ws : List Word) :
    (e.withSign sign).symbols ++ ws = joinWord sign (e.symbols ++ ws) := by
  cases he with
  | @number w hw =>
    rw [Formula.withSign, symbols, List.singleton_append, joinWord]
    split <;> rfl
  | @group left right e hleft _ _ =>
    refine (joinWord_of_not ?_).symm
    rintro ⟨-, _, ⟨⟩, hunsigned⟩
    rw [isUnsignedWord, hleft] at hunsigned
    cases hunsigned
  | @signed sign' e hsign _ =>
    refine (joinWord_of_not ?_).symm
    rintro ⟨-, _, ⟨⟩, hunsigned⟩
    rw [isUnsignedWord] at hunsigned
    obtain hsign | hsign := hsign <;> rw [hsign] at hunsigned <;> cases hunsigned

/-- A sign that takes no number along is a word in front of the formula. -/
theorem joinWord_of_not_takesSign (hf : f.Fits Prod.fst level) (h : ¬TakesSign sign f)
    (ws : List Word) : joinWord sign (joined f.symbols ws) = sign :: joined f.symbols ws := by
  obtain ⟨w, rest, hsymbols, -⟩ := hf.begins
  refine joinWord_of_not ?_
  rintro ⟨hminus, hhead⟩
  rw [hsymbols] at hhead
  exact h ⟨hminus, w, by rw [hsymbols]; rfl, unsigned_head_joined.1 hhead⟩

/-- A sign that takes a number along makes one word with it. -/
theorem joinWord_of_takesSign (h : TakesSign sign f) : ∃ w rest, f.symbols = w :: rest ∧
    isUnsignedWord w ∧ ∀ ws, joinWord sign (joined f.symbols ws) =
      (.number, '-' :: w.2) :: joined rest ws := by
  obtain ⟨hminus, w, hw, hunsigned⟩ := h
  obtain ⟨rest, hsymbols⟩ := List.head?_eq_some_iff.1 hw
  refine ⟨w, rest, hsymbols, hunsigned, fun ws => ?_⟩
  have hne : w.1 ≠ .minus := by
    rw [(isUnsignedWord_iff.1 hunsigned).1]
    decide
  rw [hsymbols, joined_cons, joinWord_of_ne hne, joinWord, if_pos ⟨hminus, hunsigned⟩]

/-- A formula without such differences is scanned as the one whose numbers have signs. -/
theorem joined_symbols (he : e.Fits Prod.fst level) (h : ¬e.Joins) (ws : List Word) :
    joined e.symbols ws = e.join.symbols ++ ws := by
  have hbinary {e f : Formula Word} {sign : Word} {level' : Level} (h : ¬(binary e sign f).Joins)
      (hf : f.Fits Prod.fst level')
      (ihe : ¬e.Joins → ∀ ws, joined e.symbols ws = e.join.symbols ++ ws)
      (ihf : ¬f.Joins → ∀ ws, joined f.symbols ws = f.join.symbols ++ ws) (ws : List Word) :
      joined (binary e sign f).symbols ws = (binary e sign f).join.symbols ++ ws := by
    obtain ⟨hnote, hnotf, hnot⟩ : ¬e.Joins ∧ ¬f.Joins ∧ ¬TakesSign sign f := by
      simpa only [Joins, not_or] using h
    rw [symbols, joined_append, joined_cons, joinWord_of_not_takesSign hf hnot, ihf hnotf,
      ihe hnote, join, symbols, List.append_assoc, List.cons_append]
  induction he generalizing ws with
  | number _ =>
    rename_i w hw
    exact joinWord_of_ne (by simp [hw])
  | @group left right e hleft _ hright ih =>
    have hne : left.1 ≠ .minus ∧ right.1 ≠ .minus := by simp [hleft, hright]
    rw [symbols, List.cons_append, joined_cons, joined_append, joined_cons, joined_nil,
      joinWord_of_ne hne.2, ih h, joinWord_of_ne hne.1, join, symbols, List.append_assoc,
      List.singleton_append]
    rfl
  | signed _ he ih => rw [symbols, joined_cons, ih h, join, he.join.symbols_withSign]
  | ofFactor _ ih | ofProduct _ ih => exact ih h ws
  | product _ _ hf ihe ihf => exact hbinary h hf ihe ihf ws
  | sum _ _ hf ihe ihf => exact hbinary h hf ihe ihf ws

/-! ## The same result -/

/-- The sign of a zero does not matter to an operation, but for the sign of a zero. -/
theorem readBack_operate? (kind : Token.Kind) (a b : Decimal) :
    (operate? kind a.readBack b.readBack).map Decimal.readBack =
      (operate? kind a b).map Decimal.readBack := by
  have hadd : (a.readBack.add b.readBack).value?.map Decimal.readBack =
      (a.add b).value?.map Decimal.readBack := by
    cases ha : a.isZero <;> cases hb : b.isZero <;>
      simp [Decimal.add, ha, hb, Decimal.readBack_of_not_isZero]
  have hsub : (a.readBack.sub b.readBack).value?.map Decimal.readBack =
      (a.sub b).value?.map Decimal.readBack := by
    cases ha : a.isZero <;> cases hb : b.isZero <;>
      simp [Decimal.sub, ha, hb, Decimal.readBack_of_not_isZero]
  have hmul : (a.readBack.mul b.readBack).value?.map Decimal.readBack =
      (a.mul b).value?.map Decimal.readBack := by
    cases ha : a.isZero <;> cases hb : b.isZero <;>
      simp [Decimal.mul, ha, hb, Decimal.readBack_of_not_isZero]
  have hdiv : (a.readBack.div b.readBack).value?.map Decimal.readBack =
      (a.div b).value?.map Decimal.readBack := by
    cases ha : a.isZero <;> cases hb : b.isZero <;>
      simp [Decimal.div, ha, hb, Decimal.readBack_of_not_isZero]
  unfold operate?
  split
  · exact hadd
  · exact hsub
  · exact hmul
  · exact hdiv

theorem readBack_signed (sign : Word) (a : Decimal) :
    (if sign.1 = .minus then a.readBack.neg else a.readBack).readBack =
      (if sign.1 = .minus then a.neg else a).readBack := by
  split <;> simp

theorem map_readBack_result?_withSign (sign : Word) (e : Formula Word) :
    (e.withSign sign).result?.map Decimal.readBack =
      (signed sign e).result?.map Decimal.readBack := by
  cases e with
  | number w =>
    rw [withSign]
    split
    · next hjoin =>
      obtain ⟨hminus, hunsigned⟩ := hjoin
      obtain ⟨-, d, rest, hw, hdigit⟩ := isUnsignedWord_iff.1 hunsigned
      have hne : ∀ c ∈ (w.2.filter (· ≠ ',')).head?, c ≠ '-' := by
        have hcomma : d ≠ ',' := by
          rintro rfl
          cases hdigit
        rw [hw, List.filter_cons_of_pos (by simpa using hcomma)]
        rintro _ ⟨⟩ rfl
        cases hdigit
      have hfilter : ('-' :: w.2).filter (· ≠ ',') = '-' :: w.2.filter (· ≠ ',') := rfl
      rw [result?, result?, result?, hfilter, Decimal.ofChars?_minus hne]
      simp [hminus, Function.comp_def]
    · rfl
  | group left e right => rfl
  | signed sign' e => rfl
  | binary e sign' f => rfl

/-- What the formula comes to does not change, but for the signs of zeros. -/
theorem map_readBack_result?_join (he : e.Fits Prod.fst level) :
    e.join.result?.map Decimal.readBack = e.result?.map Decimal.readBack := by
  have hbinary {e f : Formula Word} {sign : Word}
      (ihe : e.join.result?.map Decimal.readBack = e.result?.map Decimal.readBack)
      (ihf : f.join.result?.map Decimal.readBack = f.result?.map Decimal.readBack) :
      (binary e sign f).join.result?.map Decimal.readBack =
        (binary e sign f).result?.map Decimal.readBack := by
    -- The operands may be taken without the signs of zeros.
    have hresult (e f : Formula Word) : (binary e sign f).result?.map Decimal.readBack =
        (e.result?.map Decimal.readBack).bind fun a => (f.result?.map Decimal.readBack).bind
          fun b => (operate? sign.1 a b).map Decimal.readBack := by
      rw [result?]
      cases e.result? <;> cases f.result? <;> simp [readBack_operate?]
    rw [join, hresult, hresult, ihe, ihf]
  induction he with
  | number _ => rfl
  | group _ _ _ ih => exact ih
  | ofFactor _ ih | ofProduct _ ih => exact ih
  | product _ _ _ ihe ihf | sum _ _ _ ihe ihf => exact hbinary ihe ihf
  | @signed sign e hsign he ih =>
    have hresult (e : Formula Word) : (signed sign e).result?.map Decimal.readBack =
        (e.result?.map Decimal.readBack).map fun a =>
          (if sign.1 = .minus then a.neg else a).readBack := by
      rw [result?]
      cases e.result? <;> simp [readBack_signed]
    rw [join, hresult, ← ih, ← hresult]
    exact map_readBack_result?_withSign sign e.join

/-! ## Expressions that stop short -/

open Line

/-- What reading a formula with such a difference on a level comes to, if it is written without
blanks. -/
def Stops (e : Formula Word) : Level → Prop
  | .factor => ∀ (ws : List Word) (l : Line), l.words = joined e.symbols ws →
      (forget l.factor).ok? = none
  | .product => ∀ (ws : List Word) (l : Line), l.words = joined e.symbols ws →
      (forget l.product).ok? = none
  | .sum => ∀ (ws : List Word) (l : Line), l.words = joined e.symbols ws →
      ∀ n l', (forget l.expression).ok? = some (n, l') → l'.nextKind? = some .number

variable {l : Line} {left right : Word}

theorem ok?_more_none {isSign : Token.Kind → Bool}
    {operand : (l : Line) → Reading (Decimal × Shorter l.size)}
    {more : (l : Line) → Decimal → Reading (Decimal × Shorter (l.size + 1))}
    (h : TakesOperands isSign operand more) (hsign : isSign sign.1) (hl : l.words = sign :: ws)
    (hoperand : ∀ l' : Line, l'.words = ws → (forget (operand l')).ok? = none) (a : Decimal) :
    (forget (more l a)).ok? = none := by
  obtain ⟨t, ts, htokens, hkind, -, hts⟩ := of_words_cons hl
  rw [h.goesOn htokens (hkind ▸ hsign), Reading.ok?_bind, hoperand _ hts]
  rfl

theorem Stops.group (hleft : left.1 = .leftParen) (hright : right.1 = .rightParen)
    (he : e.Stops .sum) : (group left e right).Stops .factor := by
  intro ws l hl
  have hne : left.1 ≠ .minus ∧ right.1 ≠ .minus := by simp [hleft, hright]
  rw [symbols, List.cons_append, joined_cons, joined_append, joined_cons, joined_nil,
    joinWord_of_ne hne.2, joinWord_of_ne hne.1] at hl
  obtain ⟨t, ts, htokens, hkind, -, hts⟩ := of_words_cons hl
  rw [forget_factor_cons htokens, hkind, hleft]
  refine (Reading.ok?_bind _ _).trans (Option.bind_eq_none_iff.2 fun p hp => ?_)
  -- No closing parenthesis follows.
  obtain ⟨next, hnext, hnumber⟩ := Option.map_eq_some_iff.1 (he _ _ hts _ _ hp)
  obtain ⟨rest, htokens⟩ := List.head?_eq_some_iff.1 hnext
  simp [closing, token, htokens, hnumber]

theorem Stops.signed (hsign : sign.1 = .plus ∨ sign.1 = .minus) (hfits : e.Fits Prod.fst .factor)
    (hjoins : e.Joins) (he : e.Stops .factor) : (signed sign e).Stops .factor := by
  intro ws l hl
  have hcons : joinWord sign (joined e.symbols ws) = sign :: joined e.symbols ws := by
    refine joinWord_of_not ?_
    rintro ⟨-, hunsigned⟩
    cases hfits with
    | number _ => exact hjoins
    | group hleft _ _ =>
      have hbegin := unsigned_head_joined.1 hunsigned
      rw [isUnsignedWord, hleft] at hbegin
      cases hbegin
    | signed hsign _ =>
      have hbegin := unsigned_head_joined.1 hunsigned
      rw [isUnsignedWord] at hbegin
      obtain hsign | hsign := hsign <;> rw [hsign] at hbegin <;> cases hbegin
  rw [symbols, joined_cons, hcons] at hl
  obtain ⟨t, ts, htokens, hkind, -, hts⟩ := of_words_cons hl
  rw [forget_factor_cons htokens, hkind]
  obtain hsign | hsign := hsign
  · simp only [hsign]
    exact he _ _ hts
  · simp only [hsign, Reading.ok?_bind, he _ _ hts, Option.bind_none]

theorem Stops.ofFactor (he : e.Stops .factor) : e.Stops .product := by
  intro ws l hl
  rw [forget_product, Reading.ok?_bind, he _ _ hl]
  rfl

theorem Stops.ofProduct (he : e.Stops .product) : e.Stops .sum := by
  intro ws l hl n l' h
  rw [forget_expression, Reading.ok?_bind, he _ _ hl] at h
  cases h

theorem Stops.product (hsign : sign.1 = .star ∨ sign.1 = .slash) (hfits : e.Fits Prod.fst .product)
    (he : e.Joins → e.Stops .product) (hf : f.Joins → f.Stops .factor)
    (h : (binary e sign f).Joins) : (binary e sign f).Stops .product := by
  intro ws l hl
  have hne : sign.1 ≠ .minus := by obtain hsign | hsign := hsign <;> simp [hsign]
  rw [symbols, joined_append] at hl
  by_cases hjoins : e.Joins
  · exact he hjoins _ _ hl
  · have hlast : f.Joins := by simpa [Joins, TakesSign, hjoins, hne] using h
    rw [joined_symbols hfits hjoins, joined_cons, joinWord_of_ne hne] at hl
    obtain ⟨l', hl', hread⟩ := ok?_product_of_words hfits.join hl
    rw [hread]
    exact Option.bind_eq_none_iff.2 fun a _ =>
      ok?_more_none moreFactors_takes (decide_eq_true hsign) hl' (fun l hl => hf hlast _ _ hl) a

/-- A difference in the last part of a sum is not read, if its sign takes no number along. -/
theorem ok?_expression_of_last (hsign : sign.1 = .plus ∨ sign.1 = .minus)
    (he : e.Fits Prod.fst .sum) (hjoins : ¬e.Joins) (hf : f.Fits Prod.fst .product)
    (hstops : f.Stops .product) (htakes : ¬TakesSign sign f)
    (hl : l.words = joined (binary e sign f).symbols ws) : (forget l.expression).ok? = none := by
  rw [symbols, joined_append, joined_cons, joinWord_of_not_takesSign hf htakes,
    joined_symbols he hjoins] at hl
  have hstop : ∀ w ∈ (sign :: joined f.symbols ws).head?, w.1 ≠ .star ∧ w.1 ≠ .slash := by
    rintro w ⟨⟩
    obtain hsign | hsign := hsign <;> simp [hsign]
  obtain ⟨l₁, hl₁, hsum⟩ := ok?_sum_of_words he.join hl hstop
  rw [hsum]
  exact Option.bind_eq_none_iff.2 fun a _ =>
    ok?_more_none moreProducts_takes (decide_eq_true hsign) hl₁ (fun l hl => hstops _ _ hl) a

theorem Stops.sum (hsign : sign.1 = .plus ∨ sign.1 = .minus) (hfits : e.Fits Prod.fst .sum)
    (hfits' : f.Fits Prod.fst .product) (he : e.Joins → e.Stops .sum)
    (hf : f.Joins → f.Stops .product) (h : (binary e sign f).Joins) :
    (binary e sign f).Stops .sum := by
  intro ws l hl n l' hread
  by_cases hjoins : e.Joins
  · rw [symbols, joined_append] at hl
    exact he hjoins _ _ hl _ _ hread
  by_cases htakes : TakesSign sign f
  · -- The sign belongs to the next number, and the first sum ends in front of that.
    obtain ⟨w, rest, -, -, hcons⟩ := joinWord_of_takesSign htakes
    rw [symbols, joined_append, joined_cons, hcons, joined_symbols hfits hjoins] at hl
    obtain ⟨l₁, hl₁, hsum⟩ := ok?_sum_of_words hfits.join hl (by rintro w ⟨⟩; simp)
    obtain ⟨t, ts, htokens, hkind, -, -⟩ := of_words_cons hl₁
    rw [hsum] at hread
    obtain ⟨a, -, hread⟩ := Option.bind_eq_some_iff.1 hread
    rw [forget_moreProducts_of_ne (by rw [htokens]; rintro t ⟨⟩; simp [hkind]),
      Reading.ok?_pure] at hread
    obtain ⟨-, rfl⟩ := Prod.mk.inj (Option.some.inj hread)
    rw [nextKind?_of_words, hl₁]
    rfl
  · have hlast : f.Joins := (h.resolve_left hjoins).resolve_right htakes
    rw [ok?_expression_of_last hsign hfits hjoins hfits' (hf hlast) htakes hl] at hread
    cases hread

/-- Wherever in a formula such a difference stands, reading the formula fails or stops in front of a
number. -/
theorem stops_of_joins (he : e.Fits Prod.fst level) (h : e.Joins) : e.Stops level := by
  induction he with
  | number _ => exact h.elim
  | group hleft _ hright ih => exact (ih h).group hleft hright
  | signed hsign he ih => exact (ih h).signed hsign he h
  | ofFactor _ ih => exact (ih h).ofFactor
  | ofProduct _ ih => exact (ih h).ofProduct
  | product he hsign _ ihe ihf => exact .product hsign he ihe ihf h
  | sum he hsign hf ihe ihf => exact .sum hsign he hf ihe ihf h

/-- Without blanks a formula begins an expression too. -/
theorem startsExpression_joined (he : e.Fits Prod.fst .sum) (hl : l.words = joined e.symbols ws) :
    l.startsExpression = true := by
  obtain ⟨w, rest, hsymbols, hkind⟩ := he.begins
  rw [startsExpression, nextKind?_of_words, hl, hsymbols, joined_cons]
  obtain hhead | ⟨-, cs, hhead⟩ := head_joinWord w (joined rest ws)
  · rw [hhead]
    simp only [List.mem_cons, List.not_mem_nil, or_false] at hkind
    obtain h | h | h | h := hkind <;> simp [h]
  · rw [hhead]
    rfl

/-- Written without blanks, an expression with such a difference stops short. -/
theorem stopsShort_of_joins (he : e.Fits Prod.fst .sum) (h : e.Joins) (ws : List Word) :
    StopsShort (joined e.symbols ws) := fun l hl =>
  ⟨startsExpression_joined he hl,
    fun n l' hread => ⟨.number, by simp, stops_of_joins he h ws l hl n l' hread⟩⟩

end Formula

end DoubleEntry
