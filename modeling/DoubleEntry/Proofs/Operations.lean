import DoubleEntry.Booking.Balance
import DoubleEntry.Holdings
import DoubleEntry.Proofs.Ends

/-!
# Failures of operations

Sums, differences and products round to the places that a decimal has, so they fail only on numbers
that are too large. Only asking for the tolerance of a number can ask for too many places.

* `Checked.Operates`: a computation fails only on an operation.
* `Holdings.addPostings_operates`, `Transaction.residual_operates`, …: adding up what transactions
  move fails only so.
-/

namespace DoubleEntry

/-- The failure of an operation on numbers, and not of asking for a number of places. -/
def ArithmeticError.OfOperation (e : ArithmeticError) : Prop := ∀ scale, e ≠ .scaleTooLarge scale

namespace Checked

variable {α β σ δ : Type} {x : Checked α}

/-- The computation fails only on an operation. -/
def Operates (x : Checked α) : Prop := x.Ends (fun _ => True) ArithmeticError.OfOperation

namespace Operates

theorem exact (a : α) : (Checked.exact a).Operates := Ends.exact trivial

theorem pure (a : α) : (Pure.pure a : Checked α).Operates := exact a

/-- Operations one after the other are operations. -/
theorem bind {f : α → Checked β} (h : x.Operates) (hf : ∀ a, (f a).Operates) :
    (x >>= f).Operates :=
  Ends.bind h fun a _ => hf a

/-- So is a loop of them. -/
theorem foldlM {f : σ → δ → Checked σ} (hf : ∀ s d, (f s d).Operates) (l : List δ) (s : σ) :
    (l.foldlM f s).Operates :=
  Ends.foldlM (fun d _ s _ => hf s d) trivial

/-- What only operates never complains about a scale. -/
theorem ne_scaleTooLarge (h : x.Operates) (scale : Nat) : x ≠ .error (.scaleTooLarge scale) := by
  rintro rfl
  exact h.of_error scale rfl

/-- After a step that only operates, what comes next has asked for too many places. -/
theorem bind_eq_scaleTooLarge_iff {f : α → Checked β} (h : x.Operates) {scale : Nat} :
    x >>= f = .error (.scaleTooLarge scale) ↔
      ∃ a, x.value? = some a ∧ f a = .error (.scaleTooLarge scale) := by
  rw [bind_eq_error_iff, or_iff_right (h.ne_scaleTooLarge scale)]

end Operates

/-- Before steps that only operate, what came first has asked for too many places. -/
theorem bind_eq_scaleTooLarge_iff {f : α → Checked β} (hf : ∀ a, (f a).Operates) {scale : Nat} :
    x >>= f = .error (.scaleTooLarge scale) ↔ x = .error (.scaleTooLarge scale) := by
  rw [bind_eq_error_iff, or_iff_left]
  rintro ⟨a, -, h⟩
  exact (hf a).ne_scaleTooLarge scale h

end Checked

/-! ## Arithmetic -/

namespace Decimal

/-- Whether or not there is a result, an operation fails as operations do. -/
theorem outcome_operates {e : ArithmeticError} (he : e.OfOperation) (isExact : Decimal → Bool)
    (result : Option Decimal) : (outcome e isExact result).Operates := by
  cases result with
  | none => exact .error he
  | some a =>
    simp only [outcome]
    split
    · exact .exact a
    · exact Checked.Ends.rounded trivial

theorem add_operates (a b : Decimal) : (a.add b).Operates := by
  unfold add
  split
  · exact .exact _
  · split
    · exact .exact _
    · exact outcome_operates (fun _ => by simp) _ _

theorem sub_operates (a b : Decimal) : (a.sub b).Operates := by
  unfold sub
  split
  · exact .exact _
  · split
    · exact .exact _
    · exact outcome_operates (fun _ => by simp) _ _

theorem mul_operates (a b : Decimal) : (a.mul b).Operates := by
  unfold mul
  split
  · exact .exact _
  · exact outcome_operates (fun _ => by simp) _ _

end Decimal

/-! ## Holdings -/

/-- Adding to an inventory takes one sum. -/
theorem Inventory.addTo_operates (a : Amount) (positions : List Amount) :
    (addTo a positions).Operates := by
  induction positions with
  | nil => exact .exact _
  | cons p rest ih =>
    rw [addTo]
    split
    · exact (p.number.add_operates a.number).bind fun _ => .exact _
    · exact ih.bind fun _ => .exact _

namespace Holdings

theorem add_operates (h : Holdings) (account : Account) (a : Amount) : (h.add account a).Operates :=
  ((Inventory.addTo_operates a _).bind fun _ => .exact _).bind fun _ => .exact _

/-- Taking in postings adds their units, account by account. -/
theorem addPostings_operates (h : Holdings) (postings : List Posting) :
    (h.addPostings postings).Operates := by
  refine .foldlM (fun h p => ?_) _ _
  cases p.amount? with
  | none => exact .exact _
  | some a => exact h.add_operates p.account a

/-- The units of a subtree are a sum. -/
theorem subtreeUnits_operates (h : Holdings) (account : Account) (currency : Currency) :
    (h.subtreeUnits account currency).Operates :=
  .foldlM Decimal.add_operates _ _

end Holdings

/-! ## Weights -/

/-- What a lot costs takes products and sums. -/
theorem Cost.totalFor?_operates (cost : Cost) (units : Amount) :
    (cost.totalFor? units).Operates := by
  unfold totalFor?
  split
  · exact .exact _
  · exact .exact _
  · exact (Decimal.mul_operates _ _).bind fun _ => (Decimal.add_operates _ _).bind fun _ => .exact _
  · exact .exact _

theorem Price.convert_operates (price : Price) (units : Amount) :
    (price.convert units).Operates := by
  cases price with
  | unit a => exact (Decimal.mul_operates _ _).bind fun _ => .exact _
  | total a => exact .exact _

/-- The weight of a posting takes products and sums only. -/
theorem Posting.weight?_operates (p : Posting) : p.weight?.Operates := by
  unfold weight?
  split
  · exact .exact _
  · rename_i units _
    have hcost : (p.cost.elim (pure none) fun cost => cost.totalFor? units).Operates := by
      cases p.cost with
      | none => exact .exact _
      | some cost => exact cost.totalFor?_operates units
    refine hcost.bind fun total => ?_
    split
    · exact .exact _
    · split
      · exact (Price.convert_operates _ _).bind fun _ => .exact _
      · exact .exact _

theorem Totals.addWeight_operates (t : Totals) (p : Posting) : (t.addWeight p).Operates := by
  refine p.weight?_operates.bind fun weight => ?_
  split
  · exact (Decimal.add_operates _ _).bind fun _ => .exact _
  · exact .exact _

/-- Finding the residual of a transaction never asks for a number of places. -/
theorem Transaction.residual_operates (t : Transaction) : t.residual.Operates :=
  .foldlM Totals.addWeight_operates _ _

end DoubleEntry
