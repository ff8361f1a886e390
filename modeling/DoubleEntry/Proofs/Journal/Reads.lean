import DoubleEntry.Proofs.Ends
import DoubleEntry.Proofs.Journal.Relocated

/-!
# What reading a line ends with

Reading from a line gives a value and what is left of the line, or a syntax error at a place of the
line. Or it fails on arithmetic, which is always a sum, a difference or a product that does not fit:
a division without a result is a syntax error like any other.

* `Reads`: what a reading ends with, one property for each of the three outcomes.
* `Line.Within`: what is left of a line, after tokens that say something.
* `Line.Holds`: a range starts at a token of the line or, where everything is read, at its end.
* `Line.IsPlace`: it is the range of such a token or end.
* `Line.Blames`: an error is found at such a place.
* `Line.Overflows`: an expression on the line has an operation that does not fit.
* `Line.expression_reads`, …: all readings of a line end so.
-/

namespace DoubleEntry

/-- Two numbers have no sum, difference or product, whichever the sign asks for. -/
def Token.Overflows (sign : Token) (e : ArithmeticError) : Prop :=
  ∃ a b : Decimal,
    sign.kind = .plus ∧ a.add b = .error e ∨ sign.kind = .minus ∧ a.sub b = .error e ∨
      sign.kind = .star ∧ a.mul b = .error e

section Reads

variable {α β γ : Type} {P : α → Prop} {P' : β → Prop} {Q : SyntaxError → Prop}
  {E : ArithmeticError → Prop} {r : Reading α}

/-- What reading ends with: a value, a syntax error or an arithmetic failure, each with a property
of its own. -/
def Reads (P : α → Prop) (Q : SyntaxError → Prop) (E : ArithmeticError → Prop) (r : Reading α) :
    Prop :=
  Checked.Ends (fun | .ok a => P a | .error e => Q e) E r.run

namespace Reads

theorem pure {a : α} (h : P a) : Reads P Q E (Pure.pure a) := .exact h

theorem throw {e : SyntaxError} (h : Q e) : Reads P Q E (MonadExcept.throw e) := .exact h

/-- Arithmetic inside a reading fails as it fails alone; it never makes a syntax error. -/
theorem lift {x : Checked α} (h : x.Ends P E) : Reads P Q E (ExceptT.lift x) := by
  cases h with
  | exact h => exact .exact h
  | rounded h => exact .rounded h
  | error h => exact .error h

/-- What is read next starts from a value with the property of the first reading; errors and
failures of both come out alike. -/
theorem bind {f : α → Reading β} (h : Reads P Q E r) (hf : ∀ a, P a → Reads P' Q E (f a)) :
    Reads P' Q E (r >>= f) := by
  refine Checked.Ends.bind h fun outcome houtcome => ?_
  cases outcome with
  | ok a => exact hf a houtcome
  | error e => exact .exact houtcome

theorem mono {P₁ : α → Prop} {Q₁ : SyntaxError → Prop} {E₁ : ArithmeticError → Prop}
    (h : Reads P Q E r) (hP : ∀ a, P a → P₁ a) (hQ : ∀ e, Q e → Q₁ e) (hE : ∀ e, E e → E₁ e) :
    Reads P₁ Q₁ E₁ r := by
  refine Checked.Ends.mono h (fun outcome houtcome => ?_) hE
  cases outcome with
  | ok a => exact hP a houtcome
  | error e => exact hQ e houtcome

theorem ite {c : Prop} [Decidable c] {r' : Reading α} (h : c → Reads P Q E r)
    (h' : ¬c → Reads P Q E r') : Reads P Q E (if c then r else r') := by
  split
  · exact h ‹_›
  · exact h' ‹_›

/-- A property that each step of a loop hands on holds of what the loop gives. -/
theorem foldlM {δ : Type} {f : α → δ → Reading α} {l : List δ}
    (hf : ∀ d ∈ l, ∀ a, P a → Reads P Q E (f a d)) {a : α} (ha : P a) :
    Reads P Q E (l.foldlM f a) := by
  induction l generalizing a with
  | nil => exact .pure ha
  | cons d l ih =>
    rw [List.foldlM_cons]
    exact (hf d List.mem_cons_self a ha).bind fun a ha =>
      ih (fun d hd => hf d (List.mem_cons_of_mem _ hd)) ha

/-- What was read ends as it does before it is mapped: no outcome is turned into another. -/
theorem of_map {f : α → β} (h : Reads P' Q E (f <$> r)) : Reads (fun a => P' (f a)) Q E r := by
  unfold Reads at h ⊢
  rw [ExceptT.run_map] at h
  generalize r.run = x at h
  cases x with
  | exact outcome => cases h with | exact h => cases outcome <;> exact .exact h
  | rounded outcome => cases h with | rounded h => cases outcome <;> exact .rounded h
  | error e => cases h with | error h => exact .error h

end Reads

end Reads

/-- An operation gives a result, or it is a division without one, or its result does not fit. -/
theorem Formula.operate_reads {sign : Token} (hsign : sign.kind ∈ [.plus, .minus, .star, .slash])
    (a b : Decimal) :
    Reads (fun c => (Formula.operate sign a b).run.value? = some (.ok c))
      (fun error => sign.kind = .slash ∧ (a.div b).value? = none ∧
        error = ⟨.noQuotient, sign.span⟩)
      (fun failure => sign.kind = .plus ∧ a.add b = .error failure ∨
        sign.kind = .minus ∧ a.sub b = .error failure ∨
        sign.kind = .star ∧ a.mul b = .error failure) (Formula.operate sign a b) := by
  have hlift {x : Checked Decimal} {Q : SyntaxError → Prop} {E : ArithmeticError → Prop}
      (hE : ∀ failure, x = .error failure → E failure) :
      Reads (fun c => (liftM x : Reading Decimal).run.value? = some (.ok c)) Q E (liftM x) :=
    .lift (Checked.Ends.iff.2 ⟨fun c hc => Checked.lift_eq_ok.2 hc, hE⟩)
  obtain h | h | h | h : sign.kind = .plus ∨ sign.kind = .minus ∨ sign.kind = .star ∨
      sign.kind = .slash := by simpa using hsign
  · simp only [Formula.operate, h]
    exact hlift fun failure hfail => .inl ⟨trivial, hfail⟩
  · simp only [Formula.operate, h]
    exact hlift fun failure hfail => .inr (.inl ⟨trivial, hfail⟩)
  · simp only [Formula.operate, h]
    exact hlift fun failure hfail => .inr (.inr ⟨trivial, hfail⟩)
  · simp only [Formula.operate, h, Line.quotient]
    cases hdiv : a.div b with
    | exact c => exact .pure rfl
    | rounded c => exact .lift (.rounded rfl)
    | error failure => exact .throw ⟨trivial, rfl, rfl⟩

namespace Line

variable {α β : Type} {l l' l'' : Line} {t : Token} {ts : List Token} {span : Span}

/-! ## Places on a line -/

/-- What is left of a line after some of its tokens, none of which is an error. -/
structure Within (l' l : Line) : Prop where
  indent : l'.indent = l.indent
  tokens : ∃ read, l.tokens = read ++ l'.tokens ∧ ∀ t ∈ read, t.kind ≠ .error
  ending : l'.ending = l.ending

theorem Within.refl (l : Line) : l.Within l := ⟨rfl, ⟨[], rfl, by simp⟩, rfl⟩

/-- The rest of a rest is a rest: tokens read in two goes are tokens read in one. -/
theorem Within.trans (h : l''.Within l') (h' : l'.Within l) : l''.Within l where
  indent := h.indent.trans h'.indent
  tokens := by
    obtain ⟨read, hread, hgood⟩ := h.tokens
    obtain ⟨read', hread', hgood'⟩ := h'.tokens
    refine ⟨read' ++ read, by rw [hread', hread, List.append_assoc], ?_⟩
    simpa [or_imp, forall_and] using ⟨hgood', hgood⟩
  ending := h.ending.trans h'.ending

theorem within_drop (l : Line) {n : Nat} (h : ∀ t ∈ l.tokens.take n, t.kind ≠ .error) :
    (l.withTokens (l.tokens.drop n)).Within l :=
  ⟨rfl, ⟨l.tokens.take n, (List.take_append_drop n l.tokens).symm, h⟩, rfl⟩

/-- One token may be read off if it is not an error. -/
theorem within_tail (h : l.tokens = t :: ts) (ht : t.kind ≠ .error) : (l.withTokens ts).Within l :=
  ⟨rfl, ⟨[t], h, by simpa using ht⟩, rfl⟩

/-- A range starts at a token of the line, or at its end if none of its tokens is an error. -/
def Holds (l : Line) (span : Span) : Prop :=
  (∃ t ∈ l.indent.toList ++ l.tokens, span.start = t.span.start) ∨
    (∀ t ∈ l.tokens, t.kind ≠ .error) ∧ span.start = l.ending.start

/-- A range is that of a token of the line or, if none of its tokens is an error, of its end. -/
def IsPlace (l : Line) (span : Span) : Prop :=
  (∃ t ∈ l.indent.toList ++ l.tokens, span = t.span) ∨
    (∀ t ∈ l.tokens, t.kind ≠ .error) ∧ span = l.ending

theorem IsPlace.holds (h : l.IsPlace span) : l.Holds span :=
  h.imp (fun ⟨t, ht, hspan⟩ => ⟨t, ht, congrArg Span.start hspan⟩) fun ⟨hgood, hspan⟩ =>
    ⟨hgood, congrArg Span.start hspan⟩

theorem IsPlace.of_mem (h : t ∈ l.tokens) : l.IsPlace t.span :=
  .inl ⟨t, List.mem_append_right _ h, rfl⟩

/-- A place of the rest is one of the line. The end of the rest counts for the line, too: all tokens
in between were fine. -/
theorem IsPlace.of_within (h : l'.IsPlace span) (hl : l'.Within l) : l.IsPlace span := by
  obtain ⟨read, hread, hgood⟩ := hl.tokens
  rcases h with ⟨t, ht, hspan⟩ | ⟨hall, hspan⟩
  · refine .inl ⟨t, ?_, hspan⟩
    rw [hread, ← hl.indent]
    simp only [List.mem_append] at ht ⊢
    exact ht.imp_right .inr
  · refine .inr ⟨?_, hl.ending ▸ hspan⟩
    rw [hread]
    simpa [or_imp, forall_and] using ⟨hgood, hall⟩

/-- Where the next token is expected, there is one, or the line ends. -/
theorem isPlace_here (l : Line) : l.IsPlace l.here := by
  unfold here
  cases h : l.tokens with
  | nil => exact .inr ⟨by simp [h], rfl⟩
  | cons t ts => exact .of_mem (by simp [h])

/-- A range around two others starts where one of them does. -/
theorem Holds.merge {span' : Span} (h : l.Holds span) (h' : l.Holds span') :
    l.Holds (span.merge span') := by
  have hmin : (span.merge span').start = span.start ∨ (span.merge span').start = span'.start := by
    simp only [Span.merge]
    omega
  unfold Holds
  obtain heq | heq := hmin <;> rw [heq]
  · exact h
  · exact h'

theorem span_unexpected (l : Line) (what : Expectation) :
    (l.unexpected what).span = l.here := by
  unfold unexpected here
  split <;> try split
  all_goals rfl

/-- A token that is missing is reported where it was expected. -/
theorem isPlace_unexpected (l : Line) (what : Expectation) :
    l.IsPlace (l.unexpected what).span := by
  rw [span_unexpected]
  exact l.isPlace_here

/-- An error is found at a place of the line. It is not about a push that stays open, for that is
only known at the end of the text. -/
structure Blames (l : Line) (e : SyntaxError) : Prop where
  span : l.IsPlace e.span
  cause : ∀ key, e.cause ≠ .unclosedPush key

theorem Blames.of_mem {cause : SyntaxError.Cause} (h : t ∈ l.tokens)
    (hcause : ∀ key, cause ≠ .unclosedPush key) : l.Blames ⟨cause, t.span⟩ :=
  ⟨.of_mem h, hcause⟩

/-- An error on the rest of a line is one on the line. -/
theorem Blames.of_within {e : SyntaxError} (h : l'.Blames e) (hl : l'.Within l) : l.Blames e :=
  ⟨h.span.of_within hl, h.cause⟩

/-- That something else was expected is never said about a push that stays open. -/
theorem blames_unexpected (l : Line) (what : Expectation) : l.Blames (l.unexpected what) where
  span := l.isPlace_unexpected what
  cause := by
    intro key
    unfold unexpected
    split
    · split <;> nofun
    · nofun

/-! ## Readings of a line -/

variable {E : ArithmeticError → Prop}

/-- What was read leaves a rest of the line; an error is found at a place of the line. -/
def Leaves (l : Line) (E : ArithmeticError → Prop) (r : Reading (α × Line)) : Prop :=
  Reads (fun p => p.2.Within l) l.Blames E r

/-- The same for a rest that is known to be shorter. -/
def LeavesShorter {n : Nat} (l : Line) (E : ArithmeticError → Prop) (r : Reading (α × Shorter n)) :
    Prop :=
  Reads (fun p => p.2.val.Within l) l.Blames E r

/-- Giving up at any rest of a line blames the line. -/
theorem unexpected_reads {P : α → Prop} (h : l'.Within l) (what : Expectation) :
    Reads P l.Blames E (throw (l'.unexpected what)) :=
  .throw ((l'.blames_unexpected what).of_within h)

theorem mem_of_within (h : l'.Within l) (ht : t ∈ l'.tokens) : t ∈ l.tokens := by
  obtain ⟨read, hread, -⟩ := h.tokens
  rw [hread]
  exact List.mem_append_right _ ht

/-- A token that is read is one of the line, and it was no error. -/
theorem token_reads (h : l'.Within l) {kind : Token.Kind} (hkind : kind ≠ .error)
    (what : Expectation) :
    Reads (fun p => p.1 ∈ l.tokens ∧ p.2.Within l) l.Blames E
      (l'.token kind what) := by
  unfold token
  cases htokens : l'.tokens with
  | nil => exact unexpected_reads h what
  | cons t ts =>
    refine .ite (fun ht => .pure ⟨mem_of_within h (by simp [htokens]), ?_⟩) fun _ =>
      unexpected_reads h what
    exact (within_tail htokens (by rwa [ht])).trans h

theorem account_reads (h : l'.Within l) : l.Leaves E l'.account :=
  (token_reads h (by decide) _).bind fun _ h => .pure h.2

theorem currency_reads (h : l'.Within l) : l.Leaves E l'.currency :=
  (token_reads h (by decide) _).bind fun _ h => .pure h.2

theorem string_reads (h : l'.Within l) : l.Leaves E l'.string :=
  (token_reads h (by decide) _).bind fun _ h => .pure h.2

theorem dateValue_reads (ht : t ∈ l.tokens) :
    Reads (fun _ => True) l.Blames E (dateValue t) := by
  unfold dateValue
  cases Date.ofText? t.text with
  | some d => exact .pure trivial
  | none => exact .throw (.of_mem ht nofun)

theorem date_reads (h : l'.Within l) : l.Leaves E l'.date :=
  (token_reads h (by decide) _).bind fun _ h => (dateValue_reads h.1).bind fun _ _ => .pure h.2

/-- A comment may be left out of the rest. -/
theorem afterComment_within (h : l'.Within l) : l'.afterComment.Within l := by
  unfold afterComment
  split
  · rename_i t ts htokens
    split
    · rename_i ht
      exact (within_tail htokens (by simp [ht])).trans h
    · exact h
  · exact h

/-- A line that should end and does not is to blame. -/
theorem finish_reads (h : l'.Within l) :
    Reads (fun _ => True) l.Blames E l'.finish :=
  .ite (fun _ => .pure trivial) fun _ => unexpected_reads (afterComment_within h) _

/-! ## Arithmetic that does not fit -/

/-- At a sign of the line, two numbers have no sum, difference or product. -/
def Signs (l : Line) (e : ArithmeticError) : Prop := ∃ sign ∈ l.tokens, sign.Overflows e

/-- A number that no decimal can hold is an error at that number. -/
theorem numberValue_reads (ht : t ∈ l.tokens) :
    Reads (fun _ => True) l.Blames E (numberValue t) := by
  unfold numberValue
  cases Decimal.ofChars? (t.text.toList.filter (· ≠ ',')) with
  | some n => exact .pure trivial
  | none => exact .throw (.of_mem ht nofun)

/-- An operation fails only if it overflows at its sign. -/
theorem operate_signs (ht : t ∈ l.tokens) (hsign : t.kind ∈ operators) (a b : Decimal) :
    Reads (fun _ => True) l.Blames l.Signs (Formula.operate t a b) := by
  refine (Formula.operate_reads hsign a b).mono (fun _ _ => trivial) ?_ fun e he => ?_
  · rintro _ ⟨-, -, rfl⟩
    exact .of_mem ht nofun
  · exact ⟨t, ht, a, b, he⟩

/-- Reading goes on with a rest of the line that has fewer tokens than the bound. -/
theorem bind_forget_reads {n : Nat} {P : β → Prop} {r : Reading (α × Shorter n)}
    {f : α × Line → Reading β} (h : l.Leaves E (forget r))
    (hf : ∀ a rest, rest.Within l → rest.size < n →
      Reads P l.Blames E (f (a, rest))) :
    Reads P l.Blames E (forget r >>= f) := by
  rw [← bind_eq_forget]
  exact (Reads.of_map h).bind fun p hp => hf p.1 p.2.val hp p.2.property

-- Factors and expressions read each other, but only on lines with fewer tokens: the induction is on
-- the number of tokens, and takes both along.
section OfSize

variable {n : Nat}

/-- Factors on rests of the line with fewer tokens end as all readings do. -/
def FactorReads (l : Line) (n : Nat) : Prop :=
  ∀ l' : Line, l'.Within l → l'.size < n → l.Leaves l.Signs (forget l'.factor)

/-- Expressions on rests of the line with fewer tokens end as all readings do. -/
def ExpressionReads (l : Line) (n : Nat) : Prop :=
  ∀ l' : Line, l'.Within l → l'.size < n → l.Leaves l.Signs (forget l'.expression)

/-- A factor takes one token at least, and what it holds has fewer. -/
theorem FactorReads.succ (hfactor : l.FactorReads n) (hexpression : l.ExpressionReads n) :
    l.FactorReads (n + 1) := by
  intro l' hl' hlt
  cases h : l'.tokens with
  | nil =>
    rw [forget_factor_nil h]
    exact unexpected_reads hl' _
  | cons t ts =>
    have hlt := Nat.lt_of_lt_of_le (size_withTokens_lt h) (Nat.le_of_lt_succ hlt)
    have ht : t ∈ l.tokens := mem_of_within hl' (by simp [h])
    have htail (hkind : t.kind ≠ .error) := (within_tail h hkind).trans hl'
    rw [forget_factor_cons h]
    cases hkind : t.kind with
    | number =>
      exact (numberValue_reads ht).bind fun _ _ => .pure (htail (by simp [hkind]))
    | leftParen =>
      refine (hexpression _ (htail (by simp [hkind])) hlt).bind fun p hp => ?_
      exact (token_reads hp (by decide) _).bind fun _ h => .pure h.2
    | minus =>
      refine (hfactor _ (htail (by simp [hkind])) hlt).bind fun p hp => ?_
      exact .pure hp
    | plus => exact hfactor _ (htail (by simp [hkind])) hlt
    | _ => exact unexpected_reads hl' _

/-- What goes on with operands ends as all readings do, if the operands do. -/
theorem TakesOperands.reads {isSign : Token.Kind → Bool}
    {operand : (l : Line) → Reading (Decimal × Shorter l.size)}
    {more : (l : Line) → Decimal → Reading (Decimal × Shorter (l.size + 1))}
    (h : TakesOperands isSign operand more)
    (hoperand : ∀ l' : Line, l'.Within l → l'.size < n → l.Leaves l.Signs (forget (operand l')))
    (l' : Line) (hl' : l'.Within l) (hle : l'.size ≤ n) (value : Decimal) :
    l.Leaves l.Signs (forget (more l' value)) := by
  rw [h.eq]
  cases htokens : l'.tokens with
  | nil => exact .pure hl'
  | cons t ts =>
    have hlt := size_withTokens_lt htokens
    have ht : t ∈ l.tokens := mem_of_within hl' (by simp [htokens])
    refine .ite (fun hsign => ?_) fun _ => .pure hl'
    have hoperator := h.isOperator hsign
    have htail : (l'.withTokens ts).Within l :=
      (within_tail htokens fun herror => absurd (herror ▸ hoperator) (by decide)).trans hl'
    refine bind_forget_reads (hoperand _ htail (by omega)) fun next rest hrest hsize => ?_
    refine (operate_signs ht hoperator value next).bind fun value _ => ?_
    exact h.reads hoperand rest hrest (by omega) value
termination_by l'.size

/-- A product is made of factors on rests of the line. -/
theorem FactorReads.product (hfactor : l.FactorReads n) (l' : Line) (hl' : l'.Within l)
    (hlt : l'.size < n) : l.Leaves l.Signs (forget l'.product) := by
  rw [forget_product]
  exact bind_forget_reads (hfactor l' hl' hlt) fun value rest hrest hsize =>
    moreFactors_takes.reads hfactor rest hrest (by omega) value

/-- A sum is made of products, and these are made of factors. -/
theorem FactorReads.expression (hfactor : l.FactorReads n) : l.ExpressionReads n := by
  intro l' hl' hlt
  rw [forget_expression]
  exact bind_forget_reads (hfactor.product l' hl' hlt) fun value rest hrest hsize =>
    moreProducts_takes.reads hfactor.product rest hrest (by omega) value

/-- A factor holds only expressions and factors with fewer tokens than the line. -/
theorem factorReads (l : Line) (n : Nat) : l.FactorReads n := by
  induction n with
  | zero => exact fun l' _ hlt => absurd hlt (Nat.not_lt_zero _)
  | succ n ih => exact ih.succ ih.expression

end OfSize

/-- An expression fails on arithmetic only at one of its signs. -/
theorem expression_reads_signs (h : l'.Within l) : l.LeavesShorter l.Signs l'.expression :=
  ((factorReads l _).expression l' h (Nat.lt_succ_self _)).of_map

/-- An expression on the line fails: it has a sum, a difference or a product that does not fit. -/
def Overflows (l : Line) (e : ArithmeticError) : Prop :=
  ∃ l' : Line, l'.Within l ∧ l'.expression.run = .error e ∧ l'.Signs e

/-- A failure on arithmetic names an expression on the line that has the operation. -/
theorem expression_reads (h : l'.Within l) : l.LeavesShorter l.Overflows l'.expression := by
  obtain ⟨hvalue, -⟩ := Checked.Ends.iff.1 (expression_reads_signs h)
  obtain ⟨-, hsigns⟩ := Checked.Ends.iff.1 (expression_reads_signs (.refl l'))
  exact Checked.Ends.iff.2 ⟨hvalue, fun e he => ⟨l', h, he, hsigns e he⟩⟩

end Line

end DoubleEntry
