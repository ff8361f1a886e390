import DoubleEntry.Booking.Interpolation
import DoubleEntry.Proofs.Ends

/-!
# The steps of interpolation

Interpolation gives a result exactly if nothing stops one of its steps, and then the result is what
the steps lead to.

* `Posting.inContext`: a written posting with the currency that its number takes.
* `solveNumber_gives`, `toList_solveNumbers`: how missing numbers are solved for, and what is left
  over after that.
* `Transaction.Fills`: the steps with all that they ask for; `Transaction.interpolate_gives` says
  that interpolation goes through them.
-/

namespace DoubleEntry

theorem Totals.toList_erase (t : Totals) (currency : Currency) :
    (t.erase currency).toList = t.toList.filter (·.1 ≠ currency) := by
  have heq : (t.erase currency).Equiv (t.filter fun c _ => c ≠ currency) := by
    refine .of_forall_constGet?_eq fun c => ?_
    rw [Std.TreeMap.getElem?_erase, Std.TreeMap.getElem?_filter']
    by_cases h : currency = c
    · simp [h]
    · have h' : ¬c = currency := fun hc => h hc.symm
      cases t[c]? <;> simp [h, h', Option.filter]
  rw [heq.toList_eq, Std.TreeMap.toList_filter]

/-! ## What was written -/

namespace Posting

variable {strict : Bool} {p q : Posting} {shared : Option Currency}

/-- The posting has a number alone, and nothing tells its currency. -/
def LacksCurrency (p : Posting) (shared : Option Currency) : Prop :=
  (∃ n, p.units = some (.numberOnly n)) ∧ p.contextCurrency?.or shared = none

/-- The posting with the currency that a number alone takes, if anything tells it. -/
def inContext (p : Posting) (shared : Option Currency) : Posting :=
  match p.units, p.contextCurrency?.or shared with
  | some (.numberOnly n), some currency => { p with units := some (.complete ⟨n, currency⟩) }
  | _, _ => p

/-- The currency in which the posting weighs, if its number is missing. -/
def solvedIn? (p : Posting) : Option Currency :=
  p.missingNumber?.bind fun currency => (p.basis? currency).map (·.1)

theorem missingNumber?_eq_some {c : Currency} :
    p.missingNumber? = some c ↔ p.units = some (.currencyOnly c) := by
  unfold missingNumber?
  split <;> simp_all

theorem withCurrency_gives :
    (p.withCurrency shared).run.Gives strict (.ok q) ↔
      ¬p.LacksCurrency shared ∧ q = p.inContext shared := by
  unfold withCurrency inContext LacksCurrency
  split
  · next n hunits =>
    rw [hunits]
    cases hc : p.contextCurrency?.or shared with
    | none => exact iff_of_false Checked.throw_not_gives_ok fun h => h.1 ⟨⟨n, rfl⟩, rfl⟩
    | some currency =>
      rw [Checked.pure_gives_ok]
      simp [eq_comm]
  · next hunits =>
    rw [Checked.pure_gives_ok, eq_comm]
    have hnumber : ¬∃ n, p.units = some (.numberOnly n) := fun ⟨n, hn⟩ => hunits n hn
    split
    · next n _ hn _ => exact absurd hn (hunits n)
    · simp [hnumber]

theorem lacksCurrency_of_error {error : InterpolationError}
    (h : (p.withCurrency shared).run.Gives strict (.error error)) : p.LacksCurrency shared := by
  unfold withCurrency at h
  split at h
  · next n hunits =>
    cases hc : p.contextCurrency?.or shared with
    | none => exact ⟨⟨n, hunits⟩, hc⟩
    | some currency =>
      rw [hc] at h
      exact absurd h Checked.pure_not_gives_error
  · exact absurd h Checked.pure_not_gives_error

/-- A number alone gains a currency, and otherwise the posting stays as it was written. -/
theorem inContext_cases (p : Posting) (shared : Option Currency) :
    p.inContext shared = p ∨ ∃ n currency, p.units = some (.numberOnly n) ∧
      p.inContext shared = { p with units := some (.complete ⟨n, currency⟩) } := by
  unfold inContext
  split
  · next n currency hunits _ => exact .inr ⟨n, currency, hunits, rfl⟩
  · exact .inl rfl

/-- The currency of a number alone changes nothing else. -/
theorem inContext_eq (p : Posting) (shared : Option Currency) :
    p.inContext shared = { p with units := (p.inContext shared).units } ∧
      (p.inContext shared).units.isSome = p.units.isSome ∧
      (p.inContext shared).missingNumber? = p.missingNumber? := by
  rcases p.inContext_cases shared with h | ⟨n, currency, hunits, h⟩
  · simp [h]
  · simp [h, hunits, missingNumber?]

theorem inContext_of_missingNumber {c : Currency} (h : p.missingNumber? = some c) :
    p.inContext shared = p := by
  rcases p.inContext_cases shared with heq | ⟨n, currency, hunits, -⟩
  · exact heq
  · rw [missingNumber?_eq_some, hunits] at h
    cases h

end Posting

namespace Transaction

/-- The postings with the currencies that numbers alone take. -/
def settled (t : Transaction) : List Posting := t.postings.map (·.inContext t.sharedCurrency?)

/-- The sum of the weights of what was written, by currency. -/
def written (t : Transaction) : Checked Totals :=
  residualOf (t.postings.map (·.inContext t.sharedCurrency?))

theorem countP_settled (t : Transaction) :
    t.settled.countP (·.units.isNone) = t.postings.countP (·.units.isNone) := by
  rw [settled, List.countP_map]
  refine List.countP_congr fun p _ => ?_
  have h := (p.inContext_eq t.sharedCurrency?).2.1
  rw [Function.comp_apply, ← Option.not_isSome, ← Option.not_isSome, h]

end Transaction

/-! ## Missing numbers -/

theorem mem_missingNumbers {postings : List Posting} {c : Currency} {p : Posting} :
    (c, p) ∈ missingNumbers postings ↔ p ∈ postings ∧ p.missingNumber? = some c := by
  rw [missingNumbers, List.mem_mergeSort, List.mem_filterMap]
  constructor
  · rintro ⟨q, hq, h⟩
    obtain ⟨c', hc, h⟩ := Option.map_eq_some_iff.1 h
    obtain ⟨rfl, rfl⟩ := Prod.mk.inj h
    exact ⟨hq, hc⟩
  · rintro ⟨hp, hc⟩
    exact ⟨p, hp, by rw [hc, Option.map_some]⟩

theorem forall_missingNumbers {postings : List Posting} {P : Currency × Posting → Prop} :
    (∀ m ∈ missingNumbers postings, P m) ↔
      ∀ p ∈ postings, ∀ c, p.missingNumber? = some c → P (c, p) := by
  constructor
  · intro h p hp c hc
    exact h (c, p) (mem_missingNumbers.2 ⟨hp, hc⟩)
  · rintro h ⟨c, p⟩ hm
    obtain ⟨hp, hc⟩ := mem_missingNumbers.1 hm
    exact h p hp c hc

theorem missingNumbers_eq_nil {postings : List Posting}
    (h : ∀ p ∈ postings, p.missingNumber? = none) : missingNumbers postings = [] := by
  refine List.eq_nil_iff_forall_not_mem.2 (forall_missingNumbers.2 ?_)
  intro p hp c hc
  rw [h p hp] at hc
  cases hc

/-- A posting that lacks its number is not changed by its context. -/
theorem Transaction.missingNumbers_settled (t : Transaction) :
    missingNumbers t.settled = missingNumbers t.postings := by
  rw [missingNumbers, missingNumbers, settled, List.filterMap_map]
  congr 2
  funext p
  rw [Function.comp_apply, (p.inContext_eq t.sharedCurrency?).2.2]
  cases hc : p.missingNumber? with
  | none => rfl
  | some c => rw [Posting.inContext_of_missingNumber hc]

/-- Currencies that stand in their order need no sorting. -/
theorem missingNumbers_of_pairwise {postings : List Posting}
    (h : (postings.filterMap fun p => p.missingNumber?.map (·, p)).Pairwise fun a b => a.1 ≤ b.1) :
    missingNumbers postings = postings.filterMap fun p => p.missingNumber?.map (·, p) := by
  refine List.mergeSort_of_pairwise (h.imp ?_)
  intro a b hab
  exact decide_eq_true hab

/-- The currencies that stand alone, in another order. -/
theorem map_missingNumbers_perm (postings : List Posting) :
    ((missingNumbers postings).map (·.1)).Perm (postings.filterMap Posting.missingNumber?) := by
  refine ((List.mergeSort_perm _ _).map _).trans (List.Perm.of_eq ?_)
  rw [List.map_filterMap]
  congr 1
  funext p
  cases p.missingNumber? <;> rfl

/-- No currency is repeated exactly if they are all different. -/
theorem repeatedCurrency?_eq_none {missing : List (Currency × Posting)} :
    repeatedCurrency? missing = none ↔ (missing.map (·.1)).Nodup := by
  induction missing with
  | nil => simp [repeatedCurrency?]
  | cons m missing ih =>
    obtain ⟨c, p⟩ := m
    rw [repeatedCurrency?, List.map_cons, List.nodup_cons, ← ih]
    have hcount : (missing.filter (·.1 = c)).length = 0 ↔ c ∉ missing.map (·.1) := by
      rw [List.length_eq_zero_iff, List.filter_eq_nil_iff, List.mem_map]
      simp only [decide_eq_true_eq, not_exists, not_and]
    split
    · next h => rw [and_iff_right (hcount.1 h)]
    · next h => exact iff_of_false (by simp) fun h' => h (hcount.2 h'.1)

theorem repeatedCurrency?_missingNumbers {postings : List Posting} :
    repeatedCurrency? (missingNumbers postings) = none ↔
      (postings.filterMap Posting.missingNumber?).Nodup := by
  rw [repeatedCurrency?_eq_none, (map_missingNumbers_perm postings).nodup_iff]

/-- The posting has a basis, not zero, for solving for the number of its currency. -/
def Posting.IsSolvable (p : Posting) (c : Currency) : Prop :=
  ∃ currency perUnit, p.basis? c = some (currency, perUnit) ∧ ¬perUnit.isZero

section Solving

variable {strict : Bool} {s s' : Totals × List (Currency × Decimal)} {m : Currency × Posting}
  {missing : List (Currency × Posting)}

/-- A step divides what is left over by what one unit weighs, and leaves nothing over there. -/
theorem solveNumber_gives :
    (solveNumber s m).run.Gives strict (.ok s') ↔
      ∃ currency perUnit number, m.2.basis? m.1 = some (currency, perUnit) ∧ ¬perUnit.isZero ∧
        ((s.1.number currency).neg.div perUnit).Gives strict number ∧
        s' = (s.1.erase currency, s.2 ++ [(m.1, number)]) := by
  obtain ⟨residual, solved⟩ := s
  obtain ⟨c, p⟩ := m
  unfold solveNumber
  cases hbasis : p.basis? c with
  | none =>
    simp only [hbasis, reduceCtorEq, false_and, exists_const, iff_false]
    exact Checked.throw_not_gives_ok
  | some basis =>
    obtain ⟨weighsIn, perUnit⟩ := basis
    simp only [hbasis]
    split
    · next hzero =>
      refine iff_of_false Checked.throw_not_gives_ok ?_
      rintro ⟨_, _, _, h, hne, -⟩
      obtain ⟨rfl, rfl⟩ := Prod.mk.inj (Option.some.inj h)
      exact hne hzero
    · next hzero =>
      rw [Checked.bind_gives_ok]
      constructor
      · rintro ⟨number, hnumber, h⟩
        rw [Checked.lift_gives_ok] at hnumber
        exact ⟨weighsIn, perUnit, number, rfl, hzero, hnumber, (Checked.pure_gives_ok.1 h).symm⟩
      · rintro ⟨_, _, number, h, -, hnumber, rfl⟩
        obtain ⟨rfl, rfl⟩ := Prod.mk.inj (Option.some.inj h)
        exact ⟨number, Checked.lift_gives_ok.2 hnumber, Checked.pure_gives_ok.2 rfl⟩

theorem not_isSolvable_of_error {error : InterpolationError}
    (h : (solveNumber s m).run.Gives strict (.error error)) : ¬m.2.IsSolvable m.1 := by
  rintro ⟨weighsIn, perUnit, hbasis, hzero⟩
  obtain ⟨residual, solved⟩ := s
  obtain ⟨c, p⟩ := m
  unfold solveNumber at h
  simp only [hbasis] at h
  rw [if_neg hzero] at h
  rcases Checked.bind_gives_error.1 h with h | ⟨number, -, h⟩
  · exact absurd h Checked.lift_not_gives_error
  · exact absurd h Checked.pure_not_gives_error

/-- All postings that are solved for their number have a basis for it. -/
theorem isSolvable_of_solveNumbers
    (h : (missing.foldlM solveNumber s).run.Gives strict (.ok s')) :
    ∀ m ∈ missing, m.2.IsSolvable m.1 := by
  induction missing generalizing s with
  | nil => simp
  | cons m missing ih =>
    rw [List.foldlM_cons, Checked.bind_gives_ok] at h
    obtain ⟨next, hm, h⟩ := h
    obtain ⟨currency, perUnit, number, hbasis, hzero, -⟩ := solveNumber_gives.1 hm
    exact List.forall_mem_cons.2 ⟨⟨currency, perUnit, hbasis, hzero⟩, ih h⟩

/-- Solving for numbers leaves over the currencies in which no posting was solved. -/
theorem toList_solveNumbers
    (h : (missing.foldlM solveNumber s).run.Gives strict (.ok s')) :
    s'.1.toList = s.1.toList.filter fun e =>
      ∀ m ∈ missing, (m.2.basis? m.1).map (·.1) ≠ some e.1 := by
  induction missing generalizing s with
  | nil =>
    rw [List.foldlM_nil, Checked.pure_gives_ok] at h
    rw [h, List.filter_eq_self.2 (by simp)]
  | cons m missing ih =>
    rw [List.foldlM_cons, Checked.bind_gives_ok] at h
    obtain ⟨next, hm, h⟩ := h
    obtain ⟨currency, perUnit, number, hbasis, -, -, rfl⟩ := solveNumber_gives.1 hm
    rw [ih h, Totals.toList_erase, List.filter_filter]
    refine List.filter_congr fun e _ => ?_
    rw [Bool.eq_iff_iff, Bool.and_eq_true, decide_eq_true_iff, decide_eq_true_iff,
      decide_eq_true_iff, List.forall_mem_cons, hbasis, and_comm, Option.map_some, ne_comm,
      Ne, Ne, Option.some_inj]

end Solving

/-! ## Interpolation -/

/-- What stands in the place of the postings, given what is left over and the numbers that were
solved for, and which of it was filled in. -/
def Transaction.standIns (t : Transaction) (leftOver : Totals)
    (solved : List (Currency × Decimal)) : List (Posting × Bool) :=
  t.settled.flatMap (completed leftOver solved)

theorem Transaction.map_standIns (t : Transaction) (leftOver : Totals)
    (solved : List (Currency × Decimal)) :
    (t.standIns leftOver solved).map (·.1) = t.postings.flatMap fun p =>
      (completed leftOver solved (p.inContext t.sharedCurrency?)).map (·.1) := by
  rw [standIns, settled, List.flatMap_map, List.map_flatMap]

/-- Interpolation goes through all of its steps: every number has a currency, no two postings name
one currency alone, at most one has nothing written, and every missing number is solved for. The
result is what stands in the place of the postings then. -/
structure Transaction.Fills (strict : Bool) (t : Transaction) (written leftOver : Totals)
    (solved : List (Currency × Decimal)) (result : Interpolation) : Prop where
  hasCurrency : ∀ p ∈ t.postings, ¬p.LacksCurrency t.sharedCurrency?
  sum : t.written.Gives strict written
  nodup : (t.postings.filterMap Posting.missingNumber?).Nodup
  openCount : t.postings.countP (·.units.isNone) ≤ 1
  solving : ((missingNumbers t.postings).foldlM solveNumber (written, [])).run.Gives strict
    (.ok (leftOver, solved))
  transaction : result.transaction =
    { t with postings := (t.standIns leftOver solved).map (·.1) }
  filled : result.filled = ((t.standIns leftOver solved).zipIdx.filter (·.1.2)).map (·.2)
  residual : result.transaction.residual.Gives strict result.residual

theorem Transaction.Fills.isSolvable {strict : Bool} {t : Transaction} {written leftOver : Totals}
    {solved : List (Currency × Decimal)} {result : Interpolation}
    (h : t.Fills strict written leftOver solved result) {p : Posting} {c : Currency}
    (hp : p ∈ t.postings) (hc : p.missingNumber? = some c) : p.IsSolvable c :=
  isSolvable_of_solveNumbers h.solving (c, p) (mem_missingNumbers.2 ⟨hp, hc⟩)

/-- Interpolation gives a result exactly if it goes through all of its steps. -/
theorem Transaction.interpolate_gives {strict : Bool} {t : Transaction} {result : Interpolation} :
    t.interpolate.run.Gives strict (.ok result) ↔
      ∃ written leftOver solved, t.Fills strict written leftOver solved result := by
  unfold interpolate
  rw [Checked.bind_gives_ok]
  have hrepeated : repeatedCurrency? (missingNumbers t.settled) = none ↔
      (t.postings.filterMap Posting.missingNumber?).Nodup := by
    rw [t.missingNumbers_settled, repeatedCurrency?_missingNumbers]
  constructor
  · rintro ⟨postings, hpostings, h⟩
    obtain ⟨hcurrency, rfl⟩ :=
      (Checked.mapM_gives_ok fun _ _ => Posting.withCurrency_gives).1 hpostings
    obtain ⟨written, hwritten, h⟩ := Checked.bind_gives_ok.1 h
    rw [Checked.lift_gives_ok] at hwritten
    simp only at h
    split at h
    · obtain ⟨_, hthrow, -⟩ := Checked.bind_gives_ok.1 h
      exact absurd hthrow Checked.throw_not_gives_ok
    next hnone =>
    split at h
    · obtain ⟨_, hthrow, -⟩ := Checked.bind_gives_ok.1 h
      exact absurd hthrow Checked.throw_not_gives_ok
    next hcount =>
    obtain ⟨⟨leftOver, solved⟩, hsolved, h⟩ := Checked.bind_gives_ok.1 h
    replace hsolved := t.missingNumbers_settled ▸ hsolved
    obtain ⟨total, htotal, h⟩ := Checked.bind_gives_ok.1 h
    rw [Checked.lift_gives_ok] at htotal
    obtain rfl := Checked.pure_gives_ok.1 h
    exact ⟨written, leftOver, solved, hcurrency, hwritten, hrepeated.1 hnone,
      t.countP_settled ▸ Nat.le_of_not_lt hcount, hsolved, rfl, rfl, htotal⟩
  · rintro ⟨written, leftOver, solved, h⟩
    refine ⟨t.settled, (Checked.mapM_gives_ok fun _ _ => Posting.withCurrency_gives).2
      ⟨h.hasCurrency, rfl⟩, Checked.bind_gives_ok.2 ⟨written, Checked.lift_gives_ok.2 h.sum, ?_⟩⟩
    simp only [hrepeated.2 h.nodup]
    rw [if_neg (by rw [t.countP_settled]; exact Nat.not_lt.2 h.openCount)]
    have htotal := h.residual
    rw [h.transaction] at htotal
    obtain ⟨transaction, filled, residual⟩ := result
    obtain rfl := h.transaction
    obtain rfl := h.filled
    exact Checked.bind_gives_ok.2 ⟨(leftOver, solved), t.missingNumbers_settled ▸ h.solving,
      Checked.bind_gives_ok.2 ⟨residual, Checked.lift_gives_ok.2 htotal,
        Checked.pure_gives_ok.2 rfl⟩⟩

end DoubleEntry
