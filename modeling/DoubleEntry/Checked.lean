/-!
# Checked computations

Arithmetic on decimals may round, and it may fail. A `Checked` computation keeps account of both: it
ends with the first operation that has no result, and otherwise tells whether all of its operations
were exact. Nothing depends on that: a rounded result is used like an exact one.

* `Checked.value?`: the result, exact or rounded.
* `Checked.Gives`: what a computation gives, with or without rounding; `Checked.bind_gives` takes it
  apart.
* `Checked.foldlM_invariant`: what the steps of a run keep holds after the run;
  `Checked.foldlM_total`: a run has a result if its steps have.
-/

namespace DoubleEntry

/-- Why an arithmetic operation has no result. -/
inductive ArithmeticError where
  /-- The exact sum does not fit, even rounded to an integer. -/
  | additionOverflow
  /-- The exact difference does not fit, even rounded to an integer. -/
  | subtractionOverflow
  /-- The exact product does not fit, even rounded to an integer. -/
  | multiplicationOverflow
  /-- The quotient does not fit, even rounded to an integer. -/
  | divisionOverflow
  /-- The divisor is zero. -/
  | divisionByZero
  /-- A number with this many places was asked for, more than a decimal can have. -/
  | scaleTooLarge (scale : Nat)
deriving DecidableEq, Repr

/-- A computation that can only fail on an arithmetic operation without a result. -/
inductive Checked (α : Type) where
  /-- Every operation gave exactly what it stands for. -/
  | exact (a : α)
  /-- Some operation gave only the nearest number that fits. -/
  | rounded (a : α)
  /-- An operation has no result. -/
  | error (e : ArithmeticError)
deriving DecidableEq, Repr

namespace Checked

variable {α β σ δ : Type}

/-- The same after an operation that rounded. -/
def afterRounding : Checked α → Checked α
  | .exact a => .rounded a
  | .rounded a => .rounded a
  | .error e => .error e

/-- Goes on with the result. -/
def bind (x : Checked α) (f : α → Checked β) : Checked β :=
  match x with
  | .exact a => f a
  | .rounded a => (f a).afterRounding
  | .error e => .error e

instance : Monad Checked where
  pure := .exact
  bind := bind

/-- The result, exact or rounded. -/
def value? : Checked α → Option α
  | .exact a => some a
  | .rounded a => some a
  | .error _ => none

@[simp] theorem pure_eq (a : α) : (pure a : Checked α) = .exact a := rfl

@[simp] theorem exact_bind (a : α) (f : α → Checked β) : Checked.exact a >>= f = f a := rfl

@[simp] theorem rounded_bind (a : α) (f : α → Checked β) :
    Checked.rounded a >>= f = (f a).afterRounding := rfl

@[simp] theorem error_bind (e : ArithmeticError) (f : α → Checked β) :
    Checked.error e >>= f = .error e := rfl

/-- A result stays rounded, whatever comes after it. -/
@[simp] theorem afterRounding_bind (x : Checked α) (f : α → Checked β) :
    x.afterRounding >>= f = (x >>= f).afterRounding := by
  cases x with
  | error e => rfl
  | _ a => cases h : f a <;> simp [afterRounding, h]

instance : LawfulMonad Checked := LawfulMonad.mk' Checked
  (by intro α x; cases x <;> rfl)
  (by intro α β x f; rfl)
  (by intro α β γ x f g; cases x <;> simp)

/-! ## Results -/

@[simp] theorem value?_exact (a : α) : (exact a).value? = some a := rfl

@[simp] theorem value?_rounded (a : α) : (rounded a).value? = some a := rfl

@[simp] theorem value?_error (e : ArithmeticError) : (error e : Checked α).value? = none := rfl

/-- Rounding is remembered beside the result and leaves it alone. -/
@[simp] theorem value?_afterRounding (x : Checked α) : x.afterRounding.value? = x.value? := by
  cases x <;> rfl

/-- A computation gives a result if both of its parts do, rounded or not. -/
@[simp] theorem value?_bind (x : Checked α) (f : α → Checked β) :
    (x >>= f).value? = x.value?.bind fun a => (f a).value? := by
  cases x <;> simp

/-- The computation gives a result; a strict one only if every operation was exact. -/
def Gives (strict : Bool) (x : Checked α) (a : α) : Prop :=
  if strict then x = .exact a else x.value? = some a

/-- Strictly, a computation gives what it gives without rounding. -/
@[simp] theorem gives_true {x : Checked α} {a : α} : x.Gives true a ↔ x = .exact a := by
  simp [Gives]

/-- Otherwise it gives whatever result there is. -/
@[simp] theorem gives_false {x : Checked α} {a : α} : x.Gives false a ↔ x.value? = some a := by
  simp [Gives]

instance (x : Checked α) : Decidable (∃ a, x = exact a) :=
  match x with
  | .exact a => isTrue ⟨a, rfl⟩
  | .rounded _ => isFalse (by simp)
  | .error _ => isFalse (by simp)

instance (x : Checked α) (p : α → Prop) [DecidablePred p] : Decidable (∃ a, x = exact a ∧ p a) :=
  match x with
  | .exact a => decidable_of_iff (p a) (by simp)
  | .rounded _ => isFalse (by simp)
  | .error _ => isFalse (by simp)

variable {strict : Bool}

@[simp] theorem exact_gives {a b : α} : (exact a).Gives strict b ↔ a = b := by
  cases strict <;> simp

/-- A computation is exact if its first step is and what follows is. -/
theorem bind_eq_exact {x : Checked α} {f : α → Checked β} {b : β} :
    x >>= f = .exact b ↔ ∃ a, x = .exact a ∧ f a = .exact b := by
  cases x with
  | rounded a => cases h : f a <;> simp [afterRounding, h]
  | _ a => simp

/-- What a computation gives comes from what its first part gives, strictly or not. -/
theorem bind_gives {x : Checked α} {f : α → Checked β} {b : β} :
    (x >>= f).Gives strict b ↔ ∃ a, x.Gives strict a ∧ (f a).Gives strict b := by
  cases strict with
  | true => simp [bind_eq_exact]
  | false => simp [Option.bind_eq_some_iff]

/-- What the steps of a run keep, given what was gone through, holds after the run. -/
theorem foldlM_invariant {f : σ → δ → Checked σ} {s : σ} (Inv : List δ → σ → Prop)
    (start : Inv [] s)
    (step : ∀ seen s d s', Inv seen s → (f s d).Gives strict s' → Inv (seen ++ [d]) s')
    {l : List δ} {s' : σ} (h : (l.foldlM f s).Gives strict s') : Inv l s' := by
  suffices ∀ (l seen : List δ) (s : σ), Inv seen s → (l.foldlM f s).Gives strict s' →
      Inv (seen ++ l) s' from this l [] s start h
  intro l
  induction l with
  | nil =>
    intro seen s hs h
    rw [List.foldlM_nil, pure_eq, exact_gives] at h
    simpa [← h] using hs
  | cons d l ih =>
    intro seen s hs h
    rw [List.foldlM_cons, bind_gives] at h
    obtain ⟨next, hd, hl⟩ := h
    simpa using ih (seen ++ [d]) next (step seen s d next hs hd) hl

/-- A run has a result if all its steps have. -/
theorem foldlM_total {f : σ → δ → Checked σ} {l : List δ}
    (h : ∀ d ∈ l, ∀ s, ∃ s', (f s d).value? = some s') (s : σ) :
    ∃ s', (l.foldlM f s).value? = some s' := by
  induction l generalizing s with
  | nil => exact ⟨s, rfl⟩
  | cons d l ih =>
    obtain ⟨next, hd⟩ := h d (by simp) s
    rw [List.foldlM_cons, value?_bind, hd]
    exact ih (fun e he => h e (by simp [he])) next

end Checked

end DoubleEntry
