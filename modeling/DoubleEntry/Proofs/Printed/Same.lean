import DoubleEntry.Proofs.Printed.Words

/-!
# The same transaction

A transaction is read back from its text with all that is printed, but without the signs of zeros:
the numbers are the same and have as many places.

* `Posting.readBack`: the posting that is read back.
* `Transaction.Same`: two transactions that say the same.
* `Posting.same_readBack`: what is read back says the same.
* `Transaction.Printable.of_same`: it can be printed again.
-/

namespace DoubleEntry

/-! ## What is read back -/

/-- The amount with its number as it is read back. -/
def Amount.readBack (a : Amount) : Amount := { a with number := a.number.readBack }

/-- The units with their number as it is read back. -/
def Units.readBack : Units → Units
  | .complete a => .complete a.readBack
  | .numberOnly n => .numberOnly n.readBack
  | .currencyOnly c => .currencyOnly c

/-- The cost with its numbers as they are read back. -/
def Cost.readBack (cost : Cost) : Cost :=
  { cost with
    perUnit := cost.perUnit.map Decimal.readBack
    total := cost.total.map Decimal.readBack }

/-- The price with its number as it is read back. -/
def Price.readBack : Price → Price
  | .unit a => .unit a.readBack
  | .total a => .total a.readBack

/-- The posting with its numbers as they are read back, and other metadata. -/
def Posting.readBack (p : Posting) (metadata : Metadata) : Posting :=
  { p with
    units := p.units.map Units.readBack
    cost := p.cost.map Cost.readBack
    price := p.price.map Price.readBack
    metadata }

/-! ## The same transaction -/

/-- The same number, with as many places. -/
def Decimal.Same (a b : Decimal) : Prop := a.Equals b ∧ a.scale = b.scale

/-- The same number of the same currency. -/
structure Amount.Same (a b : Amount) : Prop where
  number : a.number.Same b.number
  currency : a.currency = b.currency

/-- The same units, with the same parts missing. -/
inductive Units.Same : Units → Units → Prop
  | complete {a b : Amount} (h : a.Same b) : Same (.complete a) (.complete b)
  | numberOnly {m n : Decimal} (h : m.Same n) : Same (.numberOnly m) (.numberOnly n)
  | currencyOnly (c : Currency) : Same (.currencyOnly c) (.currencyOnly c)

/-- The same cost. -/
structure Cost.Same (a b : Cost) : Prop where
  perUnit : Option.Rel Decimal.Same a.perUnit b.perUnit
  total : Option.Rel Decimal.Same a.total b.total
  currency : a.currency = b.currency
  date : a.date = b.date
  label : a.label = b.label

/-- The same price, of one unit or of all. -/
inductive Price.Same : Price → Price → Prop
  | unit {a b : Amount} (h : a.Same b) : Same (.unit a) (.unit b)
  | total {a b : Amount} (h : a.Same b) : Same (.total a) (.total b)

/-- The same posting, whatever metadata it has. -/
structure Posting.Same (p q : Posting) : Prop where
  flag : p.flag = q.flag
  account : p.account = q.account
  units : Option.Rel Units.Same p.units q.units
  cost : Option.Rel Cost.Same p.cost q.cost
  price : Option.Rel Price.Same p.price q.price

/-- The same transaction, whatever metadata its postings have. -/
structure Transaction.Same (t u : Transaction) : Prop where
  flag : t.flag = u.flag
  payee : t.payee = u.payee
  narration : t.narration = u.narration
  tags : t.tags = u.tags
  links : t.links = u.links
  postings : List.Forall₂ Posting.Same t.postings u.postings

/-- A number is read back with its value and its places; only a zero can lose its sign. -/
theorem Decimal.same_readBack (n : Decimal) : n.readBack.Same n := ⟨n.readBack_equals, rfl⟩

theorem Amount.same_readBack (a : Amount) : a.readBack.Same a := ⟨a.number.same_readBack, rfl⟩

/-- What is missing of the units stays missing. -/
theorem Units.same_readBack : ∀ u : Units, u.readBack.Same u
  | .complete a => .complete a.same_readBack
  | .numberOnly n => .numberOnly n.same_readBack
  | .currencyOnly c => .currencyOnly c

/-- A function that relates each value to its image does so where there may be none. -/
theorem rel_option_map {α : Type} {R : α → α → Prop} {f : α → α} (h : ∀ a, R (f a) a) :
    ∀ o : Option α, Option.Rel R (o.map f) o
  | none => .none
  | some a => .some (h a)

theorem isSome_of_rel {α : Type} {R : α → α → Prop} {o o' : Option α} (h : Option.Rel R o o') :
    o.isSome = o'.isSome := by
  cases h <;> rfl

theorem exists_of_rel_some {α : Type} {R : α → α → Prop} {o : Option α} {b : α}
    (h : Option.Rel R o (some b)) : ∃ a, o = some a ∧ R a b := by
  cases h with
  | some h => exact ⟨_, rfl, h⟩

/-- Reading back changes the numbers of a cost only, and these stay the same. -/
theorem Cost.same_readBack (cost : Cost) : cost.readBack.Same cost where
  perUnit := rel_option_map Decimal.same_readBack cost.perUnit
  total := rel_option_map Decimal.same_readBack cost.total
  currency := rfl
  date := rfl
  label := rfl

theorem Price.same_readBack : ∀ q : Price, q.readBack.Same q
  | .unit a => .unit a.same_readBack
  | .total a => .total a.same_readBack

/-- A posting says the same when it is read back, with whatever metadata. -/
theorem Posting.same_readBack (p : Posting) (metadata : Metadata) :
    (p.readBack metadata).Same p where
  flag := rfl
  account := rfl
  units := rel_option_map Units.same_readBack p.units
  cost := rel_option_map Cost.same_readBack p.cost
  price := rel_option_map Price.same_readBack p.price

/-- A cost is printable with its numbers written in one way or another. -/
theorem Cost.Printable.of_same {a b : Cost} (h : b.Printable) (hsame : a.Same b) :
    a.Printable := by
  have hnone {o o' : Option Decimal} (h : Option.Rel Decimal.Same o o') :
      o = none ↔ o' = none := by
    rw [← Option.not_isSome_iff_eq_none, isSome_of_rel h, Option.not_isSome_iff_eq_none]
  refine ⟨hsame.label ▸ h.label, ?_⟩
  rw [hnone hsame.perUnit, hnone hsame.total, isSome_of_rel hsame.perUnit,
    isSome_of_rel hsame.total, hsame.currency]
  exact h.number

/-- A transaction that says the same is printable, too: its strings are the same, and so are the
parts of its costs that are there. -/
theorem Transaction.Printable.of_same {t u : Transaction} (h : u.Printable) (hsame : t.Same u) :
    t.Printable where
  payee := hsame.payee ▸ h.payee
  narration := hsame.narration ▸ h.narration
  cost := by
    intro p hp cost hcost
    obtain ⟨i, hi, rfl⟩ := List.mem_iff_getElem.1 hp
    have hi' : i < u.postings.length := hsame.postings.length_eq ▸ hi
    have hcosts := (hsame.postings.get hi hi').cost
    obtain ⟨b, hb, hrel⟩ : ∃ b ∈ u.postings[i].cost, cost.Same b := by
      simp only [List.get_eq_getElem, Option.mem_def.1 hcost] at hcosts
      generalize u.postings[i].cost = o at hcosts
      cases hcosts with
      | some hrel => exact ⟨_, rfl, hrel⟩
    exact (h.cost _ (List.getElem_mem hi') b hb).of_same hrel

end DoubleEntry
