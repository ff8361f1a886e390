import DoubleEntry.Journal.Value

/-!
# Expressions without lengths

Reading an expression tells with the rest of the line that it is shorter. Here are the equations of
these functions for those who need the rest only (`Line.forget`).

* `Line.TakesOperands`: how a sum goes on after its first product, and a product after its first
  factor. The two differ in their signs and in what stands behind them.
-/

namespace DoubleEntry

/-- What the operation of a sign gives. -/
def Formula.operate (sign : Token) (a b : Decimal) : Reading Decimal :=
  match sign.kind with
  | .plus => a.add b
  | .minus => a.sub b
  | .star => a.mul b
  | _ => Line.quotient a b sign.span

namespace Line

variable {α β : Type} {n : Nat} {l : Line} {t : Token} {ts : List Token}

/-- What was read and the rest of the line, of which it is forgotten that it is shorter. -/
def forget (x : Reading (α × Shorter n)) : Reading (α × Line) :=
  (fun p => (p.1, p.2.val)) <$> x

theorem bind_eq_forget (x : Reading (α × Shorter n)) (f : α × Line → Reading β) :
    (x >>= fun p => f (p.1, p.2.val)) = forget x >>= f := by
  simp [forget]

/-- One more operand: it is read, taken into the value, and the rest goes on from the new value. -/
theorem forget_next {m : Nat} {size : Line → Nat} (x : Reading (Decimal × Shorter n))
    (combine : Decimal → Reading Decimal)
    (more : (rest : Line) → Decimal → Reading (Decimal × Shorter (size rest)))
    (shorter : ∀ (p : Decimal × Shorter n) (q : Decimal × Shorter (size p.2.val)),
      q.2.val.size < m) :
    forget (x >>= fun p => combine p.1 >>= fun value => more p.2.val value >>= fun q =>
      pure (q.1, (⟨q.2.val, shorter p q⟩ : Shorter m))) =
    forget x >>= fun p => combine p.1 >>= fun value => forget (more p.2 value) := by
  rw [forget, map_bind, forget, bind_map_left]
  refine bind_congr fun p => ?_
  rw [map_bind]
  refine bind_congr fun value => ?_
  simp [forget]

theorem forget_expression (l : Line) :
    forget l.expression =
      forget l.product >>= fun (value, rest) => forget (rest.moreProducts value) := by
  rw [expression]
  simp [forget]

theorem forget_product (l : Line) :
    forget l.product =
      forget l.factor >>= fun (value, rest) => forget (rest.moreFactors value) := by
  rw [product]
  simp [forget]

/-! ## Sums and products -/

/-- The signs after which an expression goes on. -/
def operators : List Token.Kind := [.plus, .minus, .star, .slash]

/-- How an expression goes on after its first operand: behind each of its signs stands one more
operand, which is taken into the value, and in front of anything else it ends. -/
structure TakesOperands (isSign : Token.Kind → Bool)
    (operand : (l : Line) → Reading (Decimal × Shorter l.size))
    (more : (l : Line) → Decimal → Reading (Decimal × Shorter (l.size + 1))) : Prop where
  isOperator : ∀ {kind}, isSign kind → kind ∈ operators
  eq : ∀ (l : Line) (value : Decimal), forget (more l value) =
    match l.tokens with
    | [] => pure (value, l)
    | t :: ts =>
      if isSign t.kind then
        forget (operand (l.withTokens ts)) >>= fun (next, rest) =>
          Formula.operate t value next >>= fun value => forget (more rest value)
      else pure (value, l)

namespace TakesOperands

variable {isSign : Token.Kind → Bool} {operand : (l : Line) → Reading (Decimal × Shorter l.size)}
  {more : (l : Line) → Decimal → Reading (Decimal × Shorter (l.size + 1))}

theorem ends (h : TakesOperands isSign operand more)
    (hends : ∀ t ∈ l.tokens.head?, isSign t.kind = false) (value : Decimal) :
    forget (more l value) = pure (value, l) := by
  rw [h.eq]
  cases htokens : l.tokens with
  | nil => rfl
  | cons t ts => exact if_neg (by simp [hends t (by rw [htokens]; rfl)])

theorem goesOn (h : TakesOperands isSign operand more) (htokens : l.tokens = t :: ts)
    (ht : isSign t.kind) (value : Decimal) :
    forget (more l value) =
      forget (operand (l.withTokens ts)) >>= fun (next, rest) =>
        Formula.operate t value next >>= fun value => forget (more rest value) := by
  rw [h.eq, htokens]
  exact if_pos ht

end TakesOperands

/-- A product goes on with factors. -/
theorem moreFactors_takes :
    TakesOperands (fun kind => kind = .star ∨ kind = .slash) factor moreFactors where
  isOperator h := by
    obtain rfl | rfl := of_decide_eq_true h <;> decide
  eq l value := by
    rw [moreFactors]
    split
    · next htokens => simp [htokens, forget]
    · next t ts htokens =>
      simp only [htokens, Formula.operate]
      cases t.kind
      case star => exact forget_next _ (fun next => value.mul next) moreFactors _
      case slash => exact forget_next _ (fun next => quotient value next t.span) moreFactors _
      all_goals rfl

/-- A sum goes on with products. -/
theorem moreProducts_takes :
    TakesOperands (fun kind => kind = .plus ∨ kind = .minus) product moreProducts where
  isOperator h := by
    obtain rfl | rfl := of_decide_eq_true h <;> decide
  eq l value := by
    rw [moreProducts]
    split
    · next htokens => simp [htokens, forget]
    · next t ts htokens =>
      simp only [htokens, Formula.operate]
      cases t.kind
      case plus => exact forget_next _ (fun next => value.add next) moreProducts _
      case minus => exact forget_next _ (fun next => value.sub next) moreProducts _
      all_goals rfl

/-- A product ends before a token that is no sign of a product. -/
theorem forget_moreFactors_of_ne
    (h : ∀ t ∈ l.tokens.head?, t.kind ≠ .star ∧ t.kind ≠ .slash) (value : Decimal) :
    forget (l.moreFactors value) = pure (value, l) :=
  moreFactors_takes.ends (by simpa using h) value

/-- A sum ends before a token that is no sign of a sum. -/
theorem forget_moreProducts_of_ne
    (h : ∀ t ∈ l.tokens.head?, t.kind ≠ .plus ∧ t.kind ≠ .minus) (value : Decimal) :
    forget (l.moreProducts value) = pure (value, l) :=
  moreProducts_takes.ends (by simpa using h) value

/-! ## Factors -/

theorem forget_factor_nil (h : l.tokens = []) :
    forget l.factor = throw (l.unexpected .number) := by
  rw [factor]
  split
  · rfl
  · simp_all

/-- The closing parenthesis after a value. -/
def closing (p : Decimal × Line) : Reading (Decimal × Line) := do
  let (_, rest) ← p.2.token .rightParen .closingParen
  return (p.1, rest)

theorem forget_factor_cons (h : l.tokens = t :: ts) :
    forget l.factor =
      match t.kind with
      | .number => do return (← numberValue t, l.withTokens ts)
      | .leftParen => forget (l.withTokens ts).expression >>= closing
      | .minus => do
        let (value, rest) ← forget (l.withTokens ts).factor
        return (value.neg, rest)
      | .plus => forget (l.withTokens ts).factor
      | _ => throw (l.unexpected .number) := by
  rw [factor]
  split
  · simp_all
  · rename_i t' ts' h'
    obtain ⟨rfl, rfl⟩ := List.cons.inj (h.symm.trans h')
    simp only
    cases t.kind <;> simp only [forget]
    case leftParen =>
      rw [map_bind, bind_map_left]
      refine bind_congr fun p => ?_
      unfold closing token
      split <;> rename_i h
      · simp [h]
      · simp only [h]
        split
        · simp
        · simp
    case number =>
      rw [map_bind]
      simp
    case minus =>
      rw [map_bind, bind_map_left]
      simp
    case plus =>
      rw [map_bind, map_eq_pure_bind]
      exact bind_congr fun p => map_pure _ _
    all_goals rfl

end Line

end DoubleEntry
