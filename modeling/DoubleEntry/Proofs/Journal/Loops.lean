import DoubleEntry.Proofs.Journal.FormulaPlaces
import DoubleEntry.Proofs.Printed.Transactions

/-!
# The loops in an entry

Reading an entry goes around in loops: over the operands of a sum or a product, the components of a
cost, the values of a custom directive, the currencies of an account, the strings, tags and links of
a transaction, and over the lines below the first one. In each of them a pass reads something and
goes on behind it, or it leaves the loop. So no loop goes around more often than there are tokens or
lines.

* `Loop`: what one pass does, and how much is left to be read.
* `Loop.Below`: a pass that goes on with less than that.
* `Loop.Computes`: all passes do, and what they leave with is the result of a reading.
* `Loop.computes_of_unfolds`: a reading that goes on after one pass as it began.
* `Line.computes_costLoop`, `Line.computes_valuesLoop`, …: the loops of the readings.
-/

namespace DoubleEntry

variable {α β σ : Type}

/-! ## Loops -/

/-- What a pass of a loop comes to: another pass, or the end of the loop. -/
inductive Pass (σ α : Type) where
  | again (s : σ)
  | leave (a : α)

/-- A loop. -/
structure Loop (σ α : Type) where
  /-- One pass. -/
  pass : σ → Reading (Pass σ α)
  /-- How many tokens or lines are left to be read. -/
  size : σ → Nat

/-- Only what a computation gives is gone on with. -/
theorem Checked.bind_congr_of_value {x : Checked α} {f g : α → Checked β}
    (h : ∀ a, x.value? = some a → f a = g a) : x >>= f = x >>= g := by
  cases x with
  | exact a => exact h a rfl
  | rounded a => exact congrArg afterRounding (h a rfl)
  | error e => rfl

/-- Only what a reading gives without an error is gone on with. -/
theorem Reading.bind_congr_of_ok {r : Reading α} {f g : α → Reading β}
    (h : ∀ a, r.ok? = some a → f a = g a) : r >>= f = r >>= g := by
  refine ExceptT.ext ?_
  rw [ExceptT.run_bind, ExceptT.run_bind]
  refine Checked.bind_congr_of_value fun outcome houtcome => ?_
  cases outcome with
  | ok a => exact congrArg ExceptT.run (h a (by rw [ok?, houtcome]; rfl))
  | error e => rfl

namespace Loop

variable {L : Loop σ α} {f : σ → Reading α} {n : Nat}

/-- At most so many passes. -/
def passes (L : Loop σ α) : Nat → σ → Reading (Pass σ α)
  | 0, s => return .again s
  | n + 1, s => do
    match ← L.pass s with
    | .again s => L.passes n s
    | .leave a => return .leave a

/-- If the loop goes on after the reading, less than `n` is left to be read. -/
def Below (L : Loop σ α) (n : Nat) (r : Reading (Pass σ α)) : Prop :=
  ∀ s, r.ok? = some (.again s) → L.size s < n

/-- A pass may go on with something smaller. -/
theorem below_again {s : σ} (h : L.size s < n) : L.Below n (pure (.again s)) := by
  intro s' hs'
  rw [Reading.ok?_pure, Option.some_inj, Pass.again.injEq] at hs'
  rwa [← hs']

theorem below_leave (a : α) : L.Below n (pure (.leave a)) := by
  intro s hs
  simp at hs

theorem below_throw (e : SyntaxError) : L.Below n (throw e) := by
  intro s hs
  simp at hs

/-- What a pass reads first decides how it goes on. -/
theorem below_bind {r : Reading β} {g : β → Reading (Pass σ α)}
    (h : ∀ b, r.ok? = some b → L.Below n (g b)) : L.Below n (r >>= g) := by
  intro s hs
  rw [Reading.ok?_bind, Option.bind_eq_some_iff] at hs
  obtain ⟨b, hb, hs⟩ := hs
  exact h b hb s hs

/-- A pass that goes on leaves less to be read. What the loop is left with is what the reading
gives, and that after at most one pass more than there was left to be read. -/
structure Computes (L : Loop σ α) (f : σ → Reading α) : Prop where
  advances : ∀ s, L.Below (L.size s) (L.pass s)
  leaves : ∀ s n, L.size s < n → L.passes n s = Pass.leave <$> f s

/-- Goes on after a pass. -/
def goOn (f : σ → Reading α) : Pass σ α → Reading α
  | .again s => f s
  | .leave a => return a

@[simp] theorem goOn_again (f : σ → Reading α) (s : σ) : goOn f (.again s) = f s := rfl

@[simp] theorem goOn_leave (f : σ → Reading α) (a : α) : goOn f (.leave a) = pure a := rfl

/-- A reading that goes on after a pass as it began. -/
theorem computes_of_unfolds (advances : ∀ s, L.Below (L.size s) (L.pass s))
    (unfolds : ∀ s, f s = L.pass s >>= goOn f) : L.Computes f := by
  refine ⟨advances, fun s n => ?_⟩
  induction n generalizing s with
  | zero => exact fun h => absurd h (Nat.not_lt_zero _)
  | succ n ih =>
    intro hn
    rw [passes, unfolds, map_bind]
    refine Reading.bind_congr_of_ok fun p hp => ?_
    cases p with
    | again s' =>
      have hs' : L.size s' < L.size s := advances s s' hp
      exact ih s' (by omega)
    | leave a => rfl

end Loop

/-! ## Loops along a line -/

namespace Line

/-- What is left behind something read has fewer tokens. -/
theorem size_lt_of_forget {n : Nat} {r : Reading (α × Shorter n)} {p : α × Line}
    (h : (forget r).ok? = some p) : p.2.size < n := by
  rw [forget, Reading.ok?_map, Option.map_eq_some_iff] at h
  obtain ⟨⟨a, rest, hlt⟩, -, rfl⟩ := h
  exact hlt

theorem size_lt_of_currency {l : Line} {p : Currency × Line} (h : l.currency.ok? = some p) :
    p.2.size < l.size := by
  cases htokens : l.tokens with
  | nil => simp [currency, token, htokens] at h
  | cons t ts =>
    have hshort : (l.withTokens ts).size < l.size := size_withTokens_lt htokens
    by_cases ht : t.kind = .currency
    · simp [currency, token, htokens, ht] at h
      rwa [← h]
    · simp [currency, token, htokens, ht] at h

@[simp] theorem tokens_withTokens (l : Line) (ts : List Token) : (l.withTokens ts).tokens = ts :=
  rfl

theorem withTokens_self {l : Line} {ts : List Token} (h : l.tokens = ts) : l.withTokens ts = l := by
  rw [← h]
  rfl

/-! ### Operands -/

/-- Reads the operands after the first, in each pass a sign and what stands behind it. -/
def operandsLoop (isSign : Token.Kind → Bool) (operand : Line → Reading (Decimal × Line)) :
    Loop (Line × Decimal) (Decimal × Line) where
  pass := fun (l, value) =>
    match l.tokens with
    | [] => return .leave (value, l)
    | t :: ts =>
      if isSign t.kind then do
        let (next, rest) ← operand (l.withTokens ts)
        return .again (rest, ← Formula.operate t value next)
      else return .leave (value, l)
  size := fun (l, _) => l.size

/-- Reads the products of a sum after the first. -/
def productsLoop : Loop (Line × Decimal) (Decimal × Line) :=
  operandsLoop (fun kind => kind = .plus ∨ kind = .minus) fun l => forget l.product

/-- Reads the factors of a product after the first. -/
def factorsLoop : Loop (Line × Decimal) (Decimal × Line) :=
  operandsLoop (fun kind => kind = .star ∨ kind = .slash) fun l => forget l.factor

/-- What goes on with operands is the loop that takes a sign and an operand in each pass. -/
theorem computes_operandsLoop {isSign : Token.Kind → Bool}
    {operand : (l : Line) → Reading (Decimal × Shorter l.size)}
    {more : (l : Line) → Decimal → Reading (Decimal × Shorter (l.size + 1))}
    (h : TakesOperands isSign operand more) :
    (operandsLoop isSign fun l => forget (operand l)).Computes fun (l, a) => forget (more l a) := by
  refine Loop.computes_of_unfolds ?_ ?_
  · rintro ⟨l, a⟩
    cases htokens : l.tokens with
    | nil =>
      simp only [operandsLoop, htokens]
      exact Loop.below_leave _
    | cons t ts =>
      have hshort : (l.withTokens ts).size < l.size := size_withTokens_lt htokens
      simp only [operandsLoop, htokens]
      split
      · refine Loop.below_bind fun p hp => Loop.below_bind fun _ _ => Loop.below_again ?_
        exact Nat.lt_trans (size_lt_of_forget hp) hshort
      · exact Loop.below_leave _
  · rintro ⟨l, a⟩
    refine (h.eq l a).trans ?_
    cases htokens : l.tokens with
    | nil => simp [operandsLoop, htokens]
    | cons t ts =>
      simp only [operandsLoop, htokens]
      split <;> simp

theorem computes_productsLoop :
    productsLoop.Computes fun (l, a) => forget (l.moreProducts a) :=
  computes_operandsLoop moreProducts_takes

theorem computes_factorsLoop : factorsLoop.Computes fun (l, a) => forget (l.moreFactors a) :=
  computes_operandsLoop moreFactors_takes

/-! ### Costs -/

/-- Reads the components of a cost, one in each pass. -/
def costLoop (double : Bool) : Loop (Line × Cost) (Cost × Line) where
  pass := fun (l, cost) =>
    match l.tokens with
    | [] => throw (l.unexpected .costComponent)
    | t :: ts =>
      if t.kind = closingBrace double then return .leave (cost, l.withTokens ts)
      else if l.startsExpression then do
        let (n, rest) ← forget l.expression
        return .again (rest, withNumber double cost n)
      else
        match t.kind with
        | .comma | .star => return .again (l.withTokens ts, cost)
        | .hash => do
          let (n, rest) ← forget (l.withTokens ts).expression
          return .again (rest, { cost with total := some n })
        | .currency => return .again (l.withTokens ts, { cost with currency := some t.text })
        | .date => do
          let d ← dateValue t
          return .again (l.withTokens ts, { cost with date := some d })
        | .string => return .again (l.withTokens ts, { cost with label := some (stringValue t) })
        | _ => throw (l.unexpected .costComponent)
  size := fun (l, _) => l.size

/-- The parts of a cost are read by the loop that takes one of them in each pass. -/
theorem computes_costLoop (double : Bool) :
    (costLoop double).Computes fun (l, cost) => l.costComponents double cost := by
  refine Loop.computes_of_unfolds ?_ ?_
  · rintro ⟨l, cost⟩
    cases htokens : l.tokens with
    | nil =>
      simp only [costLoop, htokens]
      exact Loop.below_throw _
    | cons t ts =>
      have hshort : (l.withTokens ts).size < l.size := size_withTokens_lt htokens
      simp only [costLoop, htokens]
      split
      · exact Loop.below_leave _
      · split
        · exact Loop.below_bind fun _ hn => Loop.below_again (size_lt_of_forget hn)
        · cases t.kind with
          | hash =>
            exact Loop.below_bind fun _ hn =>
              Loop.below_again (Nat.lt_trans (size_lt_of_forget hn) hshort)
          | date => exact Loop.below_bind fun _ _ => Loop.below_again hshort
          | comma | star | currency | string => exact Loop.below_again hshort
          | _ => exact Loop.below_throw _
  · rintro ⟨l, cost⟩
    cases htokens : l.tokens with
    | nil =>
      simp only [costLoop, htokens]
      rw [costComponents]
      split
      · rfl
      · simp_all
    | cons t ts =>
      simp only [costLoop, htokens]
      rw [costComponents_eq htokens, ← closingBrace]
      split
      · rfl
      · split
        · rw [bind_assoc, ← bind_eq_forget]
          rfl
        · cases t.kind with
          | hash =>
            simp only []
            rw [bind_assoc, ← bind_eq_forget]
            rfl
          | date => simp
          | _ => rfl

/-! ### Values and currencies -/

/-- Reads values to the end of the line, one in each pass. -/
def valuesLoop : Loop (Line × List MetaValue) (List MetaValue × Line) where
  pass := fun (l, seen) => do
    if l.atEnd then return .leave (seen, l)
    else
      let (v, rest) ← forget l.writtenValue
      return .again (rest, seen ++ [v])
  size := fun (l, _) => l.size

/-- Values are read by the loop that appends each to those before it. -/
theorem computes_valuesLoop :
    valuesLoop.Computes fun (l, seen) => (fun (vs, rest) => (seen ++ vs, rest)) <$> l.values := by
  refine Loop.computes_of_unfolds ?_ ?_
  · rintro ⟨l, seen⟩
    simp only [valuesLoop]
    split
    · exact Loop.below_leave _
    · exact Loop.below_bind fun _ hv => Loop.below_again (size_lt_of_forget hv)
  · rintro ⟨l, seen⟩
    simp only [valuesLoop]
    rw [values]
    split
    · simp
    · rw [map_bind, bind_assoc, ← bind_eq_forget]
      refine bind_congr fun p => ?_
      simp

/-- Reads currencies, in each pass a comma and a currency. -/
def currenciesLoop : Loop (Line × List Currency) (List Currency × Line) where
  pass := fun (l, seen) =>
    match l.tokens with
    | [] => return .leave (seen, l)
    | t :: ts =>
      if t.kind = .comma then do
        let (c, rest) ← (l.withTokens ts).currency
        return .again (rest, seen ++ [c])
      else return .leave (seen, l)
  size := fun (l, _) => l.size

theorem moreCurrencies_eq {l : Line} {t : Token} {ts : List Token} (h : l.tokens = t :: ts) :
    l.moreCurrencies =
      if t.kind = .comma then do
        let (c, rest) ← (l.withTokens ts).currency
        let (cs, rest) ← rest.moreCurrencies
        return (c :: cs, rest)
      else return ([], l) := by
  rw [moreCurrencies]
  split
  · next t' ts' htokens =>
    obtain ⟨rfl, rfl⟩ := List.cons.inj (h.symm.trans htokens)
    split
    · cases ts with
      | nil => rfl
      | cons c ts =>
        by_cases hc : c.kind = .currency
        · simp [currency, token, hc, withTokens_withTokens]
        · simp [currency, token, hc]
    · rfl
  · simp_all

/-- Currencies are read by the loop that takes a comma and a currency in each pass. -/
theorem computes_currenciesLoop :
    currenciesLoop.Computes fun (l, seen) =>
      (fun (cs, rest) => (seen ++ cs, rest)) <$> l.moreCurrencies := by
  refine Loop.computes_of_unfolds ?_ ?_
  · rintro ⟨l, seen⟩
    cases htokens : l.tokens with
    | nil =>
      simp only [currenciesLoop, htokens]
      exact Loop.below_leave _
    | cons t ts =>
      have hshort : (l.withTokens ts).size < l.size := size_withTokens_lt htokens
      simp only [currenciesLoop, htokens]
      split
      · exact Loop.below_bind fun _ hc =>
          Loop.below_again (Nat.lt_trans (size_lt_of_currency hc) hshort)
      · exact Loop.below_leave _
  · rintro ⟨l, seen⟩
    cases htokens : l.tokens with
    | nil =>
      simp only [currenciesLoop, htokens]
      rw [moreCurrencies]
      split <;> simp_all
    | cons t ts =>
      simp only [currenciesLoop, htokens]
      rw [moreCurrencies_eq htokens]
      split
      · simp
      · simp

end Line

/-! ## Loops over lines -/

/-- Every line has a token of its own: one that stands on it, or the line break that ends it. -/
theorem Line.length_ofTokens_le (ts : List Token) : (Line.ofTokens ts).length ≤ ts.length := by
  induction ts with
  | nil => exact Nat.le_refl 0
  | cons t ts ih =>
    have hprepend (lines : List Line) : (prepend t lines).length ≤ lines.length + 1 := by
      unfold prepend
      split <;> simp
    exact Nat.le_trans (hprepend _) (Nat.succ_le_succ ih)

/-- Reads the metadata lines at the front, one in each pass. -/
def metadataLoop : Loop (Metadata × Nat × List Line) (Metadata × Nat × List Line) where
  pass := fun (m, stop, lines) =>
    match lines with
    | [] => return .leave (m, stop, [])
    | l :: rest => do
      if l.nextKind? = some .metaKey then
        let (key, value) ← l.keyValue
        return .again (m.insert key value, l.ending.stop, rest)
      else if l.atEnd then
        l.finish
        return .again (m, l.ending.stop, rest)
      else return .leave (m, stop, l :: rest)
  size := fun (_, _, lines) => lines.length

/-- Metadata is read by the loop that takes a line in each pass and leaves at the first of another
kind. -/
theorem computes_metadataLoop :
    metadataLoop.Computes fun (m, stop, lines) => readMetadata m stop lines := by
  refine Loop.computes_of_unfolds ?_ ?_
  · rintro ⟨m, stop, lines⟩
    cases lines with
    | nil => exact Loop.below_leave _
    | cons l rest =>
      have hshort : rest.length < (l :: rest).length := Nat.lt_succ_self _
      simp only [metadataLoop]
      split
      · exact Loop.below_bind fun _ _ => Loop.below_again hshort
      · split
        · exact Loop.below_bind fun _ _ => Loop.below_again hshort
        · exact Loop.below_leave _
  · rintro ⟨m, stop, lines⟩
    cases lines with
    | nil => rfl
    | cons l rest =>
      simp only [metadataLoop]
      rw [readMetadata]
      split
      · simp
      · split <;> simp

namespace Draft

/-- Reads the strings at the front of a line, one in each pass and not more than two. -/
def stringsLoop : Loop (Line × List String) (List String × Line) where
  pass := fun (l, seen) =>
    match l.tokens with
    | [] => return .leave (seen, l)
    | t :: ts =>
      if t.kind = .string then
        if 2 ≤ seen.length then throw (l.unexpected .tagOrLink)
        else return .again (l.withTokens ts, seen ++ [Line.stringValue t])
      else return .leave (seen, l)
  size := fun (l, _) => l.size

/-- The strings at the front of a line, if with those before there are at most two. -/
def readStrings (l : Line) (seen : List String) : Reading (List String × Line) :=
  let strings := l.tokens.takeWhile (·.kind = .string)
  if strings.length ≤ 2 - seen.length then
    return (seen ++ strings.map Line.stringValue, l.withTokens (l.tokens.drop strings.length))
  else throw ((l.withTokens (l.tokens.drop (2 - seen.length))).unexpected .tagOrLink)

/-- Reads the tags and links at the front of a line, one in each pass. -/
def tagsLoop : Loop (Draft × Line) (Draft × Line) where
  pass := fun (d, l) =>
    match l.tokens with
    | [] => return .leave (d, l)
    | t :: ts =>
      if isTagOrLink t then return .again (d.addToken t, l.withTokens ts)
      else return .leave (d, l)
  size := fun (_, l) => l.size

/-- Reads the lines of a transaction below the first, one in each pass. -/
def linesLoop : Loop (Draft × List Line) Draft where
  pass := fun (d, lines) =>
    match lines with
    | [] => return .leave d
    | l :: rest => do return .again (← d.readLine l, rest)
  size := fun (_, lines) => lines.length

/-- A payee and a narration, or a narration alone. -/
def headOf (flag : Char) : List String → Transaction
  | [] => { flag, payee := none, narration := "" }
  | [narration] => { flag, payee := none, narration }
  | payee :: narration :: _ => { flag, payee := some payee, narration }

/-- The first line is read by these loops. -/
theorem readHead_eq (flag : Char) (l : Line) :
    readHead flag l = do
      let (strings, rest) ← readStrings l []
      let (d, rest) := readTags { transaction := headOf flag strings } rest
      rest.finish
      return d := by
  rw [readHead, readStrings]
  generalize l.tokens.takeWhile (·.kind = .string) = strings
  match strings with
  | [] | [_] | [_, _] => simp [headOf]
  | _ :: _ :: _ :: more => simp

/-- The strings of a transaction are read by the loop that takes one in each pass. -/
theorem computes_stringsLoop : stringsLoop.Computes fun (l, seen) => readStrings l seen := by
  refine Loop.computes_of_unfolds ?_ ?_
  · rintro ⟨l, seen⟩
    cases htokens : l.tokens with
    | nil =>
      simp only [stringsLoop, htokens]
      exact Loop.below_leave _
    | cons t ts =>
      simp only [stringsLoop, htokens]
      split
      · split
        · exact Loop.below_throw _
        · exact Loop.below_again (Line.size_withTokens_lt htokens)
      · exact Loop.below_leave _
  · rintro ⟨l, seen⟩
    cases htokens : l.tokens with
    | nil =>
      simp only [stringsLoop, htokens, readStrings]
      simp [Line.withTokens_self htokens]
    | cons t ts =>
      simp only [stringsLoop, htokens, readStrings]
      by_cases ht : t.kind = .string
      · by_cases hseen : 2 ≤ seen.length
        · simp [ht, hseen, Line.withTokens_self htokens]
        · have hleft : 2 - seen.length = 1 - seen.length + 1 := by omega
          simp [ht, hseen, hleft, Line.withTokens_withTokens]
      · simp [ht, Line.withTokens_self htokens]

/-- Tags and links are read by the loop that takes one in each pass. -/
theorem computes_tagsLoop : tagsLoop.Computes fun (d, l) => pure (d.readTags l) := by
  refine Loop.computes_of_unfolds ?_ ?_
  · rintro ⟨d, l⟩
    cases htokens : l.tokens with
    | nil =>
      simp only [tagsLoop, htokens]
      exact Loop.below_leave _
    | cons t ts =>
      simp only [tagsLoop, htokens]
      split
      · exact Loop.below_again (Line.size_withTokens_lt htokens)
      · exact Loop.below_leave _
  · rintro ⟨d, l⟩
    cases htokens : l.tokens with
    | nil =>
      simp only [tagsLoop, htokens, readTags_eq]
      simp [Line.withTokens_self htokens]
    | cons t ts =>
      simp only [tagsLoop, htokens, readTags_eq]
      split
      · next ht => simp [ht, Line.withTokens_withTokens]
      · next ht => simp [ht, Line.withTokens_self htokens]

/-- The lines of a transaction are read by the loop that takes one in each pass. -/
theorem computes_linesLoop : linesLoop.Computes fun (d, lines) => lines.foldlM readLine d := by
  refine Loop.computes_of_unfolds ?_ ?_
  · rintro ⟨d, lines⟩
    cases lines with
    | nil => exact Loop.below_leave _
    | cons l rest =>
      exact Loop.below_bind fun _ _ => Loop.below_again (Nat.lt_succ_self rest.length)
  · rintro ⟨d, lines⟩
    cases lines with
    | nil => rfl
    | cons l rest =>
      simp only [linesLoop, List.foldlM_cons]
      simp

end Draft

end DoubleEntry
