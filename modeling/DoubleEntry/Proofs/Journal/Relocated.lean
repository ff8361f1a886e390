import DoubleEntry.Proofs.Journal.Expression
import DoubleEntry.Journal.Posting
import Mathlib.Order.MinMax

/-!
# Lines at other places

What is read from a line does not depend on where the line stands: the values are the same, and so
are the errors, at their new places.

* `Checked.Rel`: two computations round and fail alike.
* `Relocation`: where the bytes and the lines of a text go.
* `Relocates`: two readings that do the same at places that a relocation maps to each other.
* `Line.expression_relocates`, …: every reading is relocated with its line.
-/

namespace DoubleEntry

namespace Checked

variable {α β γ δ : Type} {R : α → β → Prop} {S : γ → δ → Prop}

/-- Two computations fail and round alike, and their results are related. -/
inductive Rel (R : α → β → Prop) : Checked α → Checked β → Prop
  | exact {a : α} {b : β} (h : R a b) : Rel R (.exact a) (.exact b)
  | rounded {a : α} {b : β} (h : R a b) : Rel R (.rounded a) (.rounded b)
  | error (e : ArithmeticError) : Rel R (.error e) (.error e)

/-- What rounds before rounds alike, whatever comes after. -/
theorem Rel.afterRounding {x : Checked α} {y : Checked β} (h : Rel R x y) :
    Rel R x.afterRounding y.afterRounding := by
  cases h with
  | exact h => exact .rounded h
  | rounded h => exact .rounded h
  | error e => exact .error e

/-- Computations that fail and round alike go on alike from related results. -/
theorem Rel.bind {x : Checked α} {y : Checked β} {f : α → Checked γ} {g : β → Checked δ}
    (h : Rel R x y) (hfg : ∀ a b, R a b → Rel S (f a) (g b)) : Rel S (x >>= f) (y >>= g) := by
  cases h with
  | exact h => exact hfg _ _ h
  | rounded h => exact (hfg _ _ h).afterRounding
  | error e => exact .error e

theorem Rel.mono {R' : α → β → Prop} {x : Checked α} {y : Checked β} (h : Rel R x y)
    (hR : ∀ a b, R a b → R' a b) : Rel R' x y := by
  cases h with
  | exact h => exact .exact (hR _ _ h)
  | rounded h => exact .rounded (hR _ _ h)
  | error e => exact .error e

/-- Results that are related once they are mapped come from computations that are alike. -/
theorem Rel.of_map {f : α → γ} {g : β → δ} {x : Checked α} {y : Checked β}
    (h : Rel S (f <$> x) (g <$> y)) : Rel (fun a b => S (f a) (g b)) x y := by
  generalize hx : f <$> x = x' at h
  generalize hy : g <$> y = y' at h
  cases h with
  | exact h =>
    cases x <;> cases y <;> cases hx <;> cases hy
    exact .exact h
  | rounded h =>
    cases x <;> cases y <;> cases hx <;> cases hy
    exact .rounded h
  | error e =>
    cases x <;> cases y <;> cases hx <;> cases hy
    exact .error e

end Checked

/-- Where the places of a text go: each offset and each line number to a new one, and no offset past
a later one. -/
structure Relocation where
  offset : Nat → Nat
  line : Nat → Nat
  monotone : Monotone offset

/-- The range at its new place. -/
def Span.relocated (r : Relocation) (s : Span) : Span := ⟨r.offset s.start, r.offset s.stop⟩

/-- The token at its new place. -/
def Token.relocated (r : Relocation) (t : Token) : Token :=
  { t with span := t.span.relocated r, line := r.line t.line }

/-- The error at its new place. -/
def SyntaxError.relocated (r : Relocation) (e : SyntaxError) : SyntaxError :=
  ⟨e.cause, e.span.relocated r⟩

/-- The range around two ranges goes where they go, because no offset goes past a later one. -/
theorem Span.relocated_merge (r : Relocation) (a b : Span) :
    (a.merge b).relocated r = (a.relocated r).merge (b.relocated r) := by
  simp only [relocated, merge, r.monotone.map_min, r.monotone.map_max]

/-! ## Readings -/

section Readings

variable {r : Relocation} {α β γ δ : Type} {R : α → β → Prop} {S : γ → δ → Prop}

/-- Two outcomes are related, or they are the same error, which is relocated. -/
inductive Outcome (r : Relocation) (R : α → β → Prop) :
    Except SyntaxError α → Except SyntaxError β → Prop
  | ok {a : α} {b : β} (h : R a b) : Outcome r R (.ok a) (.ok b)
  | error (e : SyntaxError) : Outcome r R (.error e) (.error (e.relocated r))

/-- Two readings do the same, at places that are relocated. -/
def Relocates (r : Relocation) (R : α → β → Prop) (x : Reading α) (y : Reading β) : Prop :=
  Checked.Rel (Outcome r R) x.run y.run

namespace Relocates

theorem pure {a : α} {b : β} (h : R a b) : Relocates r R (Pure.pure a) (Pure.pure b) :=
  .exact (.ok h)

/-- An error goes where the text goes. -/
theorem throw (e : SyntaxError) :
    Relocates r R (MonadExcept.throw e) (MonadExcept.throw (e.relocated r)) :=
  .exact (.error e)

/-- What is read next does the same from related values. -/
theorem bind {x : Reading α} {y : Reading β} {f : α → Reading γ} {g : β → Reading δ}
    (h : Relocates r R x y) (hfg : ∀ a b, R a b → Relocates r S (f a) (g b)) :
    Relocates r S (x >>= f) (y >>= g) := by
  refine Checked.Rel.bind h fun o o' ho => ?_
  cases ho with
  | ok h => exact hfg _ _ h
  | error e => exact .exact (.error e)

/-- Arithmetic is the same everywhere. -/
theorem lift (x : Checked α) : Relocates r Eq (ExceptT.lift x) (ExceptT.lift x) := by
  cases x with
  | exact a => exact .exact (.ok rfl)
  | rounded a => exact .rounded (.ok rfl)
  | error e => exact .error e

/-- Readings that are the same once their values are mapped are the same before. -/
theorem of_map {f : α → γ} {g : β → δ} {x : Reading α} {y : Reading β}
    (h : Relocates r S (f <$> x) (g <$> y)) : Relocates r (fun a b => S (f a) (g b)) x y := by
  unfold Relocates at h ⊢
  rw [ExceptT.run_map, ExceptT.run_map] at h
  refine h.of_map.mono fun o o' ho => ?_
  generalize hx : Except.map f o = x' at ho
  generalize hy : Except.map g o' = y' at ho
  cases ho with
  | ok h =>
    cases o <;> cases o' <;> cases hx <;> cases hy
    exact .ok h
  | error e =>
    cases o <;> cases o' <;> cases hx <;> cases hy
    exact .error e

theorem mono {R' : α → β → Prop} {x : Reading α} {y : Reading β} (h : Relocates r R x y)
    (hR : ∀ a b, R a b → R' a b) : Relocates r R' x y := by
  refine Checked.Rel.mono h fun o o' ho => ?_
  cases ho with
  | ok h => exact .ok (hR _ _ h)
  | error e => exact .error e

/-- A choice that does not look at places is made alike. -/
theorem ite {c c' : Prop} [Decidable c] [Decidable c'] {x x' : Reading α} {y y' : Reading β}
    (hc : c ↔ c') (h : c → Relocates r R x y) (h' : ¬c → Relocates r R x' y') :
    Relocates r R (if c then x else x') (if c' then y else y') := by
  by_cases hif : c
  · rw [if_pos hif, if_pos (hc.1 hif)]
    exact h hif
  · rw [if_neg hif, if_neg (hif ∘ hc.2)]
    exact h' hif

end Relocates

end Readings

/-! ## Lines -/

namespace Line

variable {r : Relocation} {α β γ δ : Type} {l : Line} {t : Token} {ts : List Token}

/-- The line at its new place. -/
def relocated (r : Relocation) (l : Line) : Line where
  indent := l.indent.map (Token.relocated r)
  tokens := l.tokens.map (Token.relocated r)
  ending := l.ending.relocated r

@[simp] theorem relocated_withTokens (l : Line) (ts : List Token) :
    (l.withTokens ts).relocated r = (l.relocated r).withTokens (ts.map (Token.relocated r)) := rfl

@[simp] theorem relocated_tokens (l : Line) :
    (l.relocated r).tokens = l.tokens.map (Token.relocated r) := rfl

theorem relocated_tokens_cons (h : l.tokens = t :: ts) :
    (l.relocated r).tokens = t.relocated r :: ts.map (Token.relocated r) := by
  rw [relocated_tokens, h, List.map_cons]

theorem relocated_tokens_nil (h : l.tokens = []) : (l.relocated r).tokens = [] := by
  rw [relocated_tokens, h, List.map_nil]

@[simp] theorem kind_relocated (t : Token) : (t.relocated r).kind = t.kind := rfl

@[simp] theorem endsLine_relocated (t : Token) : (t.relocated r).endsLine = t.endsLine := rfl

@[simp] theorem text_relocated (t : Token) : (t.relocated r).text = t.text := rfl

/-- The kind of the next token, by which readings decide, does not depend on its place. -/
@[simp] theorem nextKind?_relocated (l : Line) : (l.relocated r).nextKind? = l.nextKind? := by
  simp only [nextKind?, relocated_tokens, List.head?_map, Option.map_map]
  rfl

@[simp] theorem atEnd_relocated (l : Line) : (l.relocated r).atEnd = l.atEnd := by
  simp only [atEnd, relocated_tokens, List.head?_map]
  cases l.tokens.head? <;> rfl

/-- The place of the next token goes where the token goes. -/
theorem here_relocated (l : Line) : (l.relocated r).here = l.here.relocated r := by
  obtain ⟨indent, _ | ⟨t, ts⟩, ending⟩ := l <;> rfl

/-- What was expected is the same, and it is said at the new place. -/
theorem unexpected_relocated (l : Line) (what : Expectation) :
    (l.relocated r).unexpected what = (l.unexpected what).relocated r := by
  obtain ⟨indent, _ | ⟨t, ts⟩, ending⟩ := l
  · rfl
  · simp only [unexpected, relocated, List.map_cons]
    by_cases h : t.endsLine
    · rw [if_pos h]
      exact if_pos h
    · rw [if_neg h]
      exact if_neg h

theorem unexpected_relocates {R : α → β → Prop} (l : Line) (what : Expectation) :
    Relocates r R (throw (l.unexpected what)) (throw ((l.relocated r).unexpected what)) := by
  rw [unexpected_relocated]
  exact .throw _

/-- What was read is related, and what is left of the line is relocated. -/
def Rest (r : Relocation) (R : α → β → Prop) (p : α × Line) (q : β × Line) : Prop :=
  R p.1 q.1 ∧ q.2 = p.2.relocated r

/-- Reading goes on from the rest at its new place. -/
theorem bind_rest {S : γ → δ → Prop} {x y : Reading (α × Line)} {f : α × Line → Reading γ}
    {g : α × Line → Reading δ} (h : Relocates r (Rest r Eq) x y)
    (hfg : ∀ a rest, Relocates r S (f (a, rest)) (g (a, rest.relocated r))) :
    Relocates r S (x >>= f) (y >>= g) := by
  refine h.bind ?_
  rintro ⟨a, rest⟩ ⟨_, _⟩ ⟨rfl, rfl⟩
  exact hfg a rest

/-- The line after the comment that may come next. -/
def afterComment (l : Line) : Line :=
  match l.tokens with
  | t :: ts => if t.kind = .comment then l.withTokens ts else l
  | [] => l

theorem afterComment_relocated (l : Line) :
    (l.relocated r).afterComment = l.afterComment.relocated r := by
  obtain ⟨indent, _ | ⟨t, ts⟩, ending⟩ := l
  · rfl
  · simp only [afterComment, relocated, List.map_cons]
    by_cases h : t.kind = .comment
    · rw [if_pos h]
      exact if_pos h
    · rw [if_neg h]
      exact if_neg h

/-- A line ends or does not end wherever it stands. -/
theorem finish_relocates (l : Line) : Relocates r Eq l.finish (l.relocated r).finish := by
  have hfinish (l : Line) : l.finish =
      if l.afterComment.tokens = [] then return ()
      else throw (l.afterComment.unexpected .endOfLine) := rfl
  rw [hfinish, hfinish, afterComment_relocated]
  exact .ite (by simp) (fun _ => .pure rfl) fun _ => unexpected_relocates _ _

/-- A token is read where it has gone; it is one of the line, and of the kind that was asked for. -/
theorem token_relocates_mem (l : Line) (kind : Token.Kind) (what : Expectation) :
    Relocates r (Rest r fun t t' => t' = t.relocated r ∧ t ∈ l.tokens ∧ t.kind = kind)
      (l.token kind what) ((l.relocated r).token kind what) := by
  unfold token
  cases h : l.tokens with
  | nil =>
    rw [relocated_tokens_nil h]
    exact unexpected_relocates l what
  | cons t ts =>
    rw [relocated_tokens_cons h]
    exact .ite Iff.rfl (fun hkind => .pure ⟨⟨rfl, List.mem_cons_self, hkind⟩, rfl⟩) fun _ =>
      unexpected_relocates l what

theorem token_relocates (l : Line) (kind : Token.Kind) (what : Expectation) :
    Relocates r (Rest r fun t t' => t' = t.relocated r) (l.token kind what)
      ((l.relocated r).token kind what) :=
  (token_relocates_mem l kind what).mono fun _ _ h => ⟨h.1.1, h.2⟩

theorem account_relocates (l : Line) :
    Relocates r (Rest r Eq) l.account (l.relocated r).account := by
  refine (token_relocates l _ _).bind ?_
  rintro ⟨t, rest⟩ ⟨_, _⟩ ⟨rfl, rfl⟩
  exact .pure ⟨rfl, rfl⟩

theorem currency_relocates (l : Line) :
    Relocates r (Rest r Eq) l.currency (l.relocated r).currency := by
  refine (token_relocates l _ _).bind ?_
  rintro ⟨t, rest⟩ ⟨_, _⟩ ⟨rfl, rfl⟩
  exact .pure ⟨rfl, rfl⟩

theorem string_relocates (l : Line) : Relocates r (Rest r Eq) l.string (l.relocated r).string := by
  refine (token_relocates l _ _).bind ?_
  rintro ⟨t, rest⟩ ⟨_, _⟩ ⟨rfl, rfl⟩
  exact .pure ⟨rfl, rfl⟩

/-- A day is told from the text of its token alone. -/
theorem dateValue_relocates (t : Token) :
    Relocates r Eq (dateValue t) (dateValue (t.relocated r)) := by
  unfold dateValue
  rw [text_relocated]
  cases Date.ofText? t.text with
  | some d => exact .pure rfl
  | none => exact .throw _

theorem date_relocates (l : Line) : Relocates r (Rest r Eq) l.date (l.relocated r).date := by
  refine (token_relocates l _ _).bind ?_
  rintro ⟨t, rest⟩ ⟨_, _⟩ ⟨rfl, rfl⟩
  refine (dateValue_relocates t).bind ?_
  rintro d _ rfl
  exact .pure ⟨rfl, rfl⟩

/-! ## Expressions -/

/-- A number is told from the text of its token alone. -/
theorem numberValue_relocates (t : Token) :
    Relocates r Eq (numberValue t) (numberValue (t.relocated r)) := by
  unfold numberValue
  rw [text_relocated]
  cases Decimal.ofChars? (t.text.toList.filter (· ≠ ',')) with
  | some n => exact .pure rfl
  | none => exact .throw _

/-- A division without a result is an error at its sign, wherever that is. -/
theorem quotient_relocates (a b : Decimal) (sign : Span) :
    Relocates r Eq (quotient a b sign) (quotient a b (sign.relocated r)) := by
  unfold quotient
  cases a.div b with
  | error e => exact .throw _
  | _ q => exact .lift _

/-- An operation looks at the kind of its sign only; where the sign stands matters for errors. -/
theorem operate_relocates (sign : Token) (a b : Decimal) :
    Relocates r Eq (Formula.operate sign a b) (Formula.operate (sign.relocated r) a b) := by
  unfold Formula.operate
  rw [kind_relocated]
  split
  · exact .lift _
  · exact .lift _
  · exact .lift _
  · exact quotient_relocates a b sign.span

/-- What was read is the same, and what is left of the line, which is shorter, is relocated. -/
def ShorterRest (r : Relocation) {k k' : Nat} (p : α × Shorter k) (q : α × Shorter k') : Prop :=
  p.1 = q.1 ∧ q.2.val = p.2.val.relocated r

/-- Reading goes on from a rest that is shorter in both places. -/
theorem bind_shorter {k k' : Nat} {S : γ → δ → Prop} {x : Reading (α × Shorter k)}
    {y : Reading (α × Shorter k')} {f : α × Shorter k → Reading γ}
    {g : α × Shorter k' → Reading δ} (h : Relocates r (ShorterRest r) x y)
    (hfg : ∀ a rest hrest hrest',
      Relocates r S (f (a, ⟨rest, hrest⟩)) (g (a, ⟨rest.relocated r, hrest'⟩))) :
    Relocates r S (x >>= f) (y >>= g) := by
  refine h.bind ?_
  rintro ⟨a, rest, hrest⟩ ⟨_, _, hrest'⟩ ⟨rfl, rfl⟩
  exact hfg a rest hrest hrest'

/-- The same when the lengths are left out. -/
theorem bind_forget {k k' : Nat} {S : γ → δ → Prop} {x : Reading (α × Shorter k)}
    {y : Reading (α × Shorter k')} {f : α × Line → Reading γ} {g : α × Line → Reading δ}
    (h : Relocates r (Rest r Eq) (forget x) (forget y))
    (hfg : ∀ a rest, rest.size < k → Relocates r S (f (a, rest)) (g (a, rest.relocated r))) :
    Relocates r S (forget x >>= f) (forget y >>= g) := by
  rw [← bind_eq_forget, ← bind_eq_forget]
  exact bind_shorter h.of_map fun a rest hrest _ => hfg a rest hrest

-- Factors and expressions read each other, but only on lines with fewer tokens: the induction is on
-- the number of tokens, and takes both along.
section OfSize

variable {n : Nat}

/-- Factors on lines with fewer tokens are the same wherever these lines stand. -/
def FactorRelocates (r : Relocation) (n : Nat) : Prop :=
  ∀ l : Line, l.size < n →
    Relocates r (Rest r Eq) (forget l.factor) (forget (l.relocated r).factor)

/-- Expressions on lines with fewer tokens are the same wherever these lines stand. -/
def ExpressionRelocates (r : Relocation) (n : Nat) : Prop :=
  ∀ l : Line, l.size < n →
    Relocates r (Rest r Eq) (forget l.expression) (forget (l.relocated r).expression)

/-- A factor takes one token at least, and what it holds has fewer. -/
theorem FactorRelocates.succ (hfactor : FactorRelocates r n)
    (hexpression : ExpressionRelocates r n) :
    FactorRelocates r (n + 1) := by
  intro l hl
  cases h : l.tokens with
  | nil =>
    rw [forget_factor_nil h, forget_factor_nil (relocated_tokens_nil h)]
    exact unexpected_relocates l _
  | cons t ts =>
    have hlt := Nat.lt_of_lt_of_le (size_withTokens_lt h) (Nat.le_of_lt_succ hl)
    rw [forget_factor_cons h, forget_factor_cons (relocated_tokens_cons h), kind_relocated,
      ← relocated_withTokens]
    cases t.kind with
    | number =>
      refine (numberValue_relocates t).bind ?_
      rintro n _ rfl
      exact .pure ⟨rfl, rfl⟩
    | leftParen =>
      refine bind_rest (hexpression _ hlt) fun n rest => ?_
      refine (token_relocates rest _ _).bind ?_
      rintro ⟨t, rest⟩ ⟨_, _⟩ ⟨rfl, rfl⟩
      exact .pure ⟨rfl, rfl⟩
    | minus =>
      refine bind_rest (hfactor _ hlt) fun n rest => ?_
      exact .pure ⟨rfl, rfl⟩
    | plus => exact hfactor _ hlt
    | _ => exact unexpected_relocates l _

/-- What goes on with operands is the same, if the operands are. -/
theorem TakesOperands.relocates {isSign : Token.Kind → Bool}
    {operand : (l : Line) → Reading (Decimal × Shorter l.size)}
    {more : (l : Line) → Decimal → Reading (Decimal × Shorter (l.size + 1))}
    (h : TakesOperands isSign operand more)
    (hoperand : ∀ l : Line, l.size < n →
      Relocates r (Rest r Eq) (forget (operand l)) (forget (operand (l.relocated r))))
    (l : Line) (hl : l.size ≤ n) (value : Decimal) :
    Relocates r (Rest r Eq) (forget (more l value)) (forget (more (l.relocated r) value)) := by
  rw [h.eq, h.eq]
  cases htokens : l.tokens with
  | nil =>
    rw [relocated_tokens_nil htokens]
    exact .pure ⟨rfl, rfl⟩
  | cons t ts =>
    have hlt := size_withTokens_lt htokens
    rw [relocated_tokens_cons htokens]
    refine .ite Iff.rfl (fun _ => ?_) fun _ => .pure ⟨rfl, rfl⟩
    rw [← relocated_withTokens]
    refine bind_forget (hoperand _ (by omega)) fun next rest hrest => ?_
    refine (operate_relocates t value next).bind ?_
    rintro value _ rfl
    exact h.relocates hoperand rest (by omega) value
termination_by l.size

/-- A product is made of factors on rests of the line. -/
theorem FactorRelocates.product (hfactor : FactorRelocates r n) (l : Line) (hl : l.size < n) :
    Relocates r (Rest r Eq) (forget l.product) (forget (l.relocated r).product) := by
  rw [forget_product, forget_product]
  exact bind_forget (hfactor l hl) fun value rest hrest =>
    moreFactors_takes.relocates hfactor rest (by omega) value

/-- A sum is made of products, and these are made of factors. -/
theorem FactorRelocates.expression (hfactor : FactorRelocates r n) : ExpressionRelocates r n := by
  intro l hl
  rw [forget_expression, forget_expression]
  exact bind_forget (hfactor.product l hl) fun value rest hrest =>
    moreProducts_takes.relocates hfactor.product rest (by omega) value

/-- A factor holds only expressions and factors with fewer tokens than the line. -/
theorem factorRelocates (r : Relocation) (n : Nat) : FactorRelocates r n := by
  induction n with
  | zero => exact fun l hl => absurd hl (Nat.not_lt_zero _)
  | succ n ih => exact ih.succ ih.expression

end OfSize

/-- An expression has the same value wherever its line stands, and leaves the same of the line. -/
theorem expression_relocates (l : Line) :
    Relocates r (ShorterRest r) l.expression (l.relocated r).expression :=
  ((factorRelocates r _).expression l (Nat.lt_succ_self _)).of_map

end Line

end DoubleEntry
