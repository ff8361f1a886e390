import DoubleEntry.Proofs.Booking.OpenPosting

/-!
# Missing numbers as unknowns

A posting with a currency alone stands for an equation: so many units at what one of them weighs,
and with what its cost adds in total, take what is left over in the currency it weighs in.

* `Unknown`, `Posting.unknown?`: the data of such an equation.
* `Posting.weightIn_fill`: a filled posting weighs what its unknown says.
* `Transaction.leftFor`, `Transaction.quotient`: of several unknowns in one currency the first takes
  all that is left over, and the others nothing.
* `Transaction.balance`: what a transaction weighs with numbers for the unknowns;
  `Transaction.Fills.value_residual` says that this is the residual after interpolation.
* `residual_solved_iff`: when it is zero in the currency of a posting that was solved.
-/

namespace DoubleEntry

/-- A missing number: units of `name`, each of which weighs `perUnit` in `currency`. What the cost
of all units together adds comes to that. -/
structure Unknown where
  name : Currency
  currency : Currency
  perUnit : Decimal
  added : Decimal
deriving DecidableEq, Repr

/-- What a missing number weighs. -/
def Unknown.weight (u : Unknown) (number : ℚ) : ℚ := number * u.perUnit.value + u.added.value

theorem Decimal.value_one : Decimal.one.value = 1 := by
  simp [Decimal.value, Decimal.signed, Decimal.one]

/-- The cost of some units is their number at the cost of one, with what the cost adds in total. -/
theorem Cost.value_totalFor? {cost : Cost} {units : Amount} {currency : Currency}
    {perUnit : Decimal} {w : Option Amount} (hcurrency : cost.currency = some currency)
    (hper : cost.perUnit = some perUnit) (h : cost.totalFor? units = .exact w) :
    ∃ number, w = some ⟨number, currency⟩ ∧
      number.value = units.number.value * perUnit.value + (cost.total.getD .zero).value := by
  simp only [totalFor?, hcurrency, hper] at h
  obtain ⟨product, hproduct, h⟩ := Checked.bind_eq_exact.1 h
  obtain ⟨number, hnumber, h⟩ := Checked.bind_eq_exact.1 h
  obtain rfl := Checked.exact.inj h
  exact ⟨number, rfl, by rw [Decimal.value_add hnumber, Decimal.value_mul hproduct]⟩

namespace Posting

variable {p : Posting} {u : Unknown} {c currency : Currency} {perUnit : Decimal}

/-- The missing number of a posting with a currency alone, if the weight of one unit is known. -/
def unknown? (p : Posting) : Option Unknown :=
  p.missingNumber?.bind fun name => (p.basis? name).map fun (currency, perUnit) =>
    { name, currency, perUnit, added := (p.cost.bind (·.total)).getD .zero }

/-- The currency in which a posting with a currency alone weighs: that of its cost, or else of its
price, or else its own. -/
def weighsIn? (p : Posting) : Option Currency :=
  p.missingNumber?.map fun c => p.contextCurrency?.getD c

theorem basis?_currency (h : p.basis? c = some (currency, perUnit)) :
    currency = p.contextCurrency?.getD c := by
  unfold basis? at h
  unfold contextCurrency?
  split at h
  · next cost price hcost =>
    split at h
    · next n c' hn hc =>
      obtain ⟨rfl, rfl⟩ := Prod.mk.inj (Option.some.inj h)
      simp [hcost, hc]
    · cases h
  · next a hcost hprice =>
    obtain ⟨rfl, rfl⟩ := Prod.mk.inj (Option.some.inj h)
    simp [hcost, hprice, Price.amount]
  · cases h
  · next hcost hprice =>
    obtain ⟨rfl, rfl⟩ := Prod.mk.inj (Option.some.inj h)
    simp [hcost, hprice]

theorem unknown?_eq_some : p.unknown? = some u ↔ p.missingNumber? = some u.name ∧
    p.basis? u.name = some (u.currency, u.perUnit) ∧
    u.added = (p.cost.bind (·.total)).getD .zero := by
  obtain ⟨name, currency, perUnit, added⟩ := u
  unfold unknown?
  rw [Option.bind_eq_some_iff]
  constructor
  · rintro ⟨c, hc, h⟩
    obtain ⟨⟨currency', perUnit'⟩, hbasis, h⟩ := Option.map_eq_some_iff.1 h
    obtain ⟨rfl, rfl, rfl, rfl⟩ := Unknown.mk.inj h
    exact ⟨hc, hbasis, rfl⟩
  · rintro ⟨hc, hbasis, rfl⟩
    exact ⟨name, hc, Option.map_eq_some_iff.2 ⟨_, hbasis, rfl⟩⟩

theorem exists_unknown (hc : p.missingNumber? = some c) (h : p.IsSolvable c) :
    ∃ u, p.unknown? = some u ∧ u.name = c ∧ ¬u.perUnit.isZero := by
  obtain ⟨currency, perUnit, hbasis, hzero⟩ := h
  exact ⟨⟨c, currency, perUnit, _⟩, unknown?_eq_some.2 ⟨hc, hbasis, rfl⟩, rfl, hzero⟩

theorem value_perUnit_ne_zero (h : p.unknown? = some u)
    (hsolvable : ∀ c, p.missingNumber? = some c → p.IsSolvable c) : u.perUnit.value ≠ 0 := by
  have hname := (unknown?_eq_some.1 h).1
  obtain ⟨v, hv, -, hzero⟩ := exists_unknown hname (hsolvable _ hname)
  obtain rfl := Option.some.inj (h.symm.trans hv)
  exact fun hvalue => hzero (Decimal.isZero_iff.2 hvalue)

theorem weighsIn?_of_unknown (h : p.unknown? = some u) : p.weighsIn? = some u.currency := by
  obtain ⟨hc, hbasis, -⟩ := unknown?_eq_some.1 h
  rw [weighsIn?, hc, Option.map_some, basis?_currency hbasis]

/-- With its number filled in, a posting weighs the units at what one of them weighs, and what its
cost adds in total. -/
theorem weight_fill {n : Decimal} {w : Option Amount} (hu : p.unknown? = some u)
    (hw : (p.fill ⟨n, u.name⟩).weight? = .exact w) :
    ∃ number, w = some ⟨number, u.currency⟩ ∧ number.value = u.weight n.value := by
  obtain ⟨name, currency, perUnit, added⟩ := u
  obtain ⟨-, hbasis, hadded⟩ := unknown?_eq_some.1 hu
  simp only at hbasis hadded hw ⊢
  unfold weight? at hw
  unfold Unknown.weight
  simp only [amount?, fill] at hw
  unfold basis? at hbasis
  split at hbasis
  · next cost price hcost =>
    split at hbasis
    · next per c hper hcurrency =>
      obtain ⟨rfl, rfl⟩ := Prod.mk.inj (Option.some.inj hbasis)
      simp only [hcost, Option.elim_some] at hw
      obtain ⟨total, htotal, hw⟩ := Checked.bind_eq_exact.1 hw
      obtain ⟨number, rfl, hvalue⟩ := Cost.value_totalFor? hcurrency hper htotal
      obtain rfl := Checked.exact.inj hw
      refine ⟨number, rfl, ?_⟩
      rw [hvalue, hadded, hcost, Option.bind_some]
    · cases hbasis
  · next a hcost hprice =>
    obtain ⟨rfl, rfl⟩ := Prod.mk.inj (Option.some.inj hbasis)
    simp only [hcost, hprice, Option.elim_none, Checked.pure_eq, Checked.exact_bind] at hw
    obtain ⟨total, htotal, hw⟩ := Checked.bind_eq_exact.1 hw
    obtain ⟨number, hnumber, htotal⟩ := Checked.bind_eq_exact.1 htotal
    obtain rfl := Checked.exact.inj htotal
    obtain rfl := Checked.exact.inj hw
    refine ⟨number, rfl, ?_⟩
    rw [Decimal.value_mul hnumber, hadded, hcost, Option.bind_none, Option.getD_none,
      Decimal.value_zero, add_zero]
  · cases hbasis
  · next hcost hprice =>
    obtain ⟨rfl, rfl⟩ := Prod.mk.inj (Option.some.inj hbasis)
    simp only [hcost, hprice, Option.elim_none, Checked.pure_eq, Checked.exact_bind] at hw
    obtain rfl := Checked.exact.inj hw
    refine ⟨n, rfl, ?_⟩
    rw [hadded, hcost, Option.bind_none, Option.getD_none, Decimal.value_zero, Decimal.value_one,
      mul_one, add_zero]

theorem weightIn_fill {n : Decimal} {w : Option Amount} (hu : p.unknown? = some u)
    (hw : (p.fill ⟨n, u.name⟩).weight? = .exact w) (c : Currency) :
    (p.fill ⟨n, u.name⟩).weightIn c = if u.currency = c then u.weight n.value else 0 := by
  obtain ⟨number, rfl, hvalue⟩ := weight_fill hu hw
  rw [weightIn_of_exact hw, Option.elim_some, Amount.inCurrency, hvalue]

/-- An unknown is the same with what the context tells. -/
theorem unknown?_inContext (p : Posting) (shared : Option Currency) :
    (p.inContext shared).unknown? = p.unknown? := by
  cases hc : p.missingNumber? with
  | none =>
    rw [unknown?, unknown?, (p.inContext_eq shared).2.2, hc, Option.bind_none, Option.bind_none]
  | some c => rw [inContext_of_missingNumber hc]

end Posting

namespace Transaction

/-- The missing numbers of the postings, in their order. -/
def unknowns (t : Transaction) : List Unknown := t.postings.filterMap Posting.unknown?

/-- The missing numbers that weigh in a currency. -/
def unknownsIn (t : Transaction) (currency : Currency) : List Unknown :=
  t.unknowns.filter (·.currency = currency)

variable {t : Transaction} {u : Unknown}

theorem mem_unknowns : u ∈ t.unknowns ↔ ∃ p ∈ t.postings, p.unknown? = some u :=
  List.mem_filterMap

theorem mem_unknownsIn {currency : Currency} :
    u ∈ t.unknownsIn currency ↔ u ∈ t.unknowns ∧ u.currency = currency := by
  rw [unknownsIn, List.mem_filter, decide_eq_true_iff]

/-- If the missing numbers can be solved for, none of them is lost: what they give, in their order,
is what the postings without a number give. -/
theorem map_unknowns {β : Type} {f : Unknown → β} {g : Posting → Option β}
    (h : ∀ p ∈ t.postings, ∀ c, p.missingNumber? = some c → p.IsSolvable c)
    (hnone : ∀ p : Posting, p.missingNumber? = none → g p = none)
    (hsome : ∀ {p : Posting} {u}, p.unknown? = some u → g p = some (f u)) :
    t.unknowns.map f = t.postings.filterMap g := by
  rw [unknowns, List.map_filterMap]
  refine List.filterMap_congr fun p hp => ?_
  cases hc : p.missingNumber? with
  | none => rw [Posting.unknown?, hc, Option.bind_none, Option.map_none, hnone p hc]
  | some c =>
    obtain ⟨u, hu, -, -⟩ := Posting.exists_unknown hc (h p hp c hc)
    rw [hu, Option.map_some, hsome hu]

/-- If the missing numbers can be solved for, their names are the currencies that stand alone. -/
theorem map_name_unknowns
    (h : ∀ p ∈ t.postings, ∀ c, p.missingNumber? = some c → p.IsSolvable c) :
    t.unknowns.map (·.name) = t.postings.filterMap Posting.missingNumber? :=
  map_unknowns h (fun _ => id) fun hu => (Posting.unknown?_eq_some.1 hu).1

theorem map_currency_unknowns
    (h : ∀ p ∈ t.postings, ∀ c, p.missingNumber? = some c → p.IsSolvable c) :
    t.unknowns.map (·.currency) = t.postings.filterMap Posting.weighsIn? :=
  map_unknowns h (fun p hc => by rw [Posting.weighsIn?, hc, Option.map_none])
    Posting.weighsIn?_of_unknown

end Transaction

/-! ## Solving for numbers -/

theorem Totals.number_erase (t : Totals) (currency c : Currency) :
    Totals.number (t.erase currency) c = if currency = c then .zero else t.number c := by
  unfold number
  rw [Std.TreeMap.getD_erase]
  by_cases h : currency = c <;> simp [h]

section Solving

variable {strict : Bool} {s s' : Totals × List (Currency × Decimal)}
  {missing : List (Currency × Posting)}

/-- After solving, nothing is left over where something was solved for. -/
theorem number_solveNumbers (h : (missing.foldlM solveNumber s).run.Gives strict (.ok s'))
    (currency : Currency) :
    s'.1.number currency =
      if ∃ m ∈ missing, (m.2.basis? m.1).map (·.1) = some currency then .zero
      else s.1.number currency := by
  induction missing generalizing s with
  | nil =>
    rw [List.foldlM_nil, Checked.pure_gives_ok] at h
    simp [h]
  | cons m missing ih =>
    rw [List.foldlM_cons, Checked.bind_gives_ok] at h
    obtain ⟨next, hm, h⟩ := h
    obtain ⟨weighsIn, perUnit, number, hbasis, -, -, rfl⟩ := solveNumber_gives.1 hm
    rw [ih h, Totals.number_erase]
    by_cases hc : weighsIn = currency
    · have hm' : (m.2.basis? m.1).map (·.1) = some currency := by
        rw [hbasis, ← hc, Option.map_some]
      rw [if_pos hc, ite_self, if_pos ⟨m, List.mem_cons_self, hm'⟩]
    · rw [if_neg hc]
      refine if_congr ?_ rfl rfl
      rw [List.exists_mem_cons_iff, hbasis, Option.map_some, Option.some_inj, or_iff_right hc]

/-- The numbers solved for stand in the order of their currencies. -/
theorem exists_of_solveNumbers (h : (missing.foldlM solveNumber s).run.Gives strict (.ok s')) :
    ∃ found, s'.2 = s.2 ++ found ∧ found.map (·.1) = missing.map (·.1) := by
  induction missing generalizing s with
  | nil =>
    rw [List.foldlM_nil, Checked.pure_gives_ok] at h
    exact ⟨[], by simp [h], rfl⟩
  | cons m missing ih =>
    rw [List.foldlM_cons, Checked.bind_gives_ok] at h
    obtain ⟨next, hm, h⟩ := h
    obtain ⟨weighsIn, perUnit, number, -, -, -, rfl⟩ := solveNumber_gives.1 hm
    obtain ⟨found, hfound, hnames⟩ := ih h
    exact ⟨(m.1, number) :: found, by rw [hfound, List.append_assoc, List.singleton_append],
      by rw [List.map_cons, List.map_cons, hnames]⟩

/-- The number for one posting among those that are solved one after the other. -/
theorem lookup_solveNumbers {before after : List (Currency × Posting)} {c : Currency} {p : Posting}
    {written leftOver : Totals} {solved : List (Currency × Decimal)}
    (h : ((before ++ (c, p) :: after).foldlM solveNumber (written, [])).run.Gives strict
      (.ok (leftOver, solved))) (hc : c ∉ before.map (·.1)) :
    ∃ currency perUnit number, p.basis? c = some (currency, perUnit) ∧
      solved.lookup c = some number ∧
      ((if ∃ m ∈ before, (m.2.basis? m.1).map (·.1) = some currency then .zero
        else written.number currency).neg.div perUnit).Gives strict number := by
  rw [List.foldlM_append] at h
  obtain ⟨mid, hbefore, h⟩ := Checked.bind_gives_ok.1 h
  rw [List.foldlM_cons] at h
  obtain ⟨next, hm, hafter⟩ := Checked.bind_gives_ok.1 h
  obtain ⟨currency, perUnit, number, hbasis, -, hnumber, rfl⟩ := solveNumber_gives.1 hm
  obtain ⟨first, hfirst, hnames⟩ := exists_of_solveNumbers hbefore
  obtain ⟨rest, hrest, -⟩ := exists_of_solveNumbers hafter
  refine ⟨currency, perUnit, number, hbasis, ?_, ?_⟩
  · -- No step before this one solves for `c`, so its entry is the first that the lookup meets.
    simp only [List.nil_append] at hfirst hrest
    rw [hrest, hfirst, List.append_assoc, List.lookup_append, List.lookup_eq_none_iff.2,
      Option.none_or]
    · simp
    · intro e he
      rw [bne_iff_ne]
      rintro rfl
      exact hc (hnames ▸ List.mem_map_of_mem he)
  · rwa [number_solveNumbers hbefore] at hnumber

theorem pairwise_missingNumbers {postings : List Posting}
    (h : (postings.filterMap Posting.missingNumber?).Nodup) :
    (missingNumbers postings).Pairwise (·.1 < ·.1) := by
  have hnodup := (map_missingNumbers_perm postings).nodup_iff.2 h
  have hle : (missingNumbers postings).Pairwise fun a b => decide (a.1 ≤ b.1) := by
    refine List.pairwise_mergeSort ?_ ?_ _
    · intro a b c hab hbc
      exact decide_eq_true (String.le_trans (of_decide_eq_true hab) (of_decide_eq_true hbc))
    · intro a b
      simpa using String.le_total a.1 b.1
  refine hle.imp₂ (fun a b hab hne => ?_) (List.pairwise_map.1 hnodup)
  rw [← String.not_le]
  exact fun hba => hne (String.le_antisymm (of_decide_eq_true hab) hba)

end Solving

namespace Transaction

variable {strict : Bool} {t : Transaction} {written leftOver : Totals} {u : Unknown}
  {solved : List (Currency × Decimal)} {result : Interpolation}

/-- What is left over for a missing number: nothing if one with a lesser name weighs in the same
currency, for then that one has taken it. -/
def leftFor (t : Transaction) (written : Totals) (u : Unknown) : Decimal :=
  if ∃ v ∈ t.unknownsIn u.currency, v.name < u.name then .zero else written.number u.currency

/-- The quotient that is computed for a missing number. -/
def quotient (t : Transaction) (written : Totals) (u : Unknown) : Checked Decimal :=
  (t.leftFor written u).neg.div u.perUnit

/-- By how much the quotient misses what is left over, because it was rounded. -/
def shortfall (t : Transaction) (written : Totals) (u : Unknown) : ℚ :=
  (t.leftFor written u).value +
    ((t.quotient written u).value?.getD .zero).value * u.perUnit.value

/-- An exact quotient takes all that is left over. -/
theorem shortfall_of_exact {number : Decimal} (h : t.quotient written u = .exact number)
    (hzero : ¬u.perUnit.isZero) : t.shortfall written u = 0 := by
  have hvalue := Decimal.value_div h
  have hne : u.perUnit.value ≠ 0 := fun h' => hzero (Decimal.isZero_iff.2 h')
  rw [shortfall, h, Checked.value?_exact, Option.getD_some, hvalue, Decimal.value_neg,
    div_mul_cancel₀ _ hne, add_neg_cancel]

theorem exists_basis_iff {currency : Currency} {P : Currency → Prop} :
    (∃ m ∈ missingNumbers t.postings, (m.2.basis? m.1).map (·.1) = some currency ∧ P m.1) ↔
      ∃ v ∈ t.unknownsIn currency, P v.name := by
  constructor
  · rintro ⟨⟨c, p⟩, hm, hbasis, hP⟩
    obtain ⟨hp, hc⟩ := mem_missingNumbers.1 hm
    obtain ⟨⟨currency, perUnit⟩, hpc, rfl⟩ := Option.map_eq_some_iff.1 hbasis
    have hu : p.unknown? = some ⟨c, currency, perUnit, _⟩ :=
      Posting.unknown?_eq_some.2 ⟨hc, hpc, rfl⟩
    exact ⟨_, mem_unknownsIn.2 ⟨mem_unknowns.2 ⟨p, hp, hu⟩, rfl⟩, hP⟩
  · rintro ⟨v, hv, hP⟩
    obtain ⟨hmem, rfl⟩ := mem_unknownsIn.1 hv
    obtain ⟨p, hp, hu⟩ := mem_unknowns.1 hmem
    obtain ⟨hc, hbasis, -⟩ := Posting.unknown?_eq_some.1 hu
    exact ⟨(v.name, p), mem_missingNumbers.2 ⟨hp, hc⟩, by rw [hbasis, Option.map_some], hP⟩

/-- In the order in which missing numbers are solved for, those before one are those with a lesser
name. -/
theorem exists_before_iff {before after : List (Currency × Posting)} {m : Currency × Posting}
    {currency : Currency} (hsplit : missingNumbers t.postings = before ++ m :: after)
    (hsorted : (before ++ m :: after).Pairwise (·.1 < ·.1)) :
    (∃ m' ∈ before, (m'.2.basis? m'.1).map (·.1) = some currency) ↔
      ∃ v ∈ t.unknownsIn currency, v.name < m.1 := by
  rw [← exists_basis_iff (P := (· < m.1)), hsplit]
  obtain ⟨-, hafter, hbefore⟩ := List.pairwise_append.1 hsorted
  constructor
  · rintro ⟨m', hm', hbasis⟩
    exact ⟨m', List.mem_append_left _ hm', hbasis, hbefore m' hm' m List.mem_cons_self⟩
  · rintro ⟨m', hm', hbasis, hlt⟩
    refine ⟨m', ?_, hbasis⟩
    rcases List.mem_append.1 hm' with hm' | hm'
    · exact hm'
    · rcases List.mem_cons.1 hm' with rfl | hm'
      · exact absurd hlt (String.lt_irrefl m'.1)
      · have hgt := (List.pairwise_cons.1 hafter).1 m' hm'
        exact absurd (String.lt_trans hlt hgt) (String.lt_irrefl m'.1)

/-- The number that was found for a missing number is its quotient. -/
theorem Fills.lookup_solved (h : t.Fills strict written leftOver solved result)
    (hu : u ∈ t.unknowns) :
    ∃ number, solved.lookup u.name = some number ∧ (t.quotient written u).Gives strict number := by
  obtain ⟨p, hp, hpu⟩ := mem_unknowns.1 hu
  obtain ⟨hc, hbasis, -⟩ := Posting.unknown?_eq_some.1 hpu
  obtain ⟨before, after, hsplit⟩ := List.append_of_mem (mem_missingNumbers.2 ⟨hp, hc⟩)
  have hsolving := h.solving
  have hsorted := pairwise_missingNumbers h.nodup
  rw [hsplit] at hsolving hsorted
  have hname : u.name ∉ before.map (·.1) := by
    rw [List.mem_map]
    rintro ⟨m, hm, heq⟩
    have hlt := (List.pairwise_append.1 hsorted).2.2 m hm (u.name, p) List.mem_cons_self
    exact String.lt_irrefl u.name (heq ▸ hlt)
  obtain ⟨currency, perUnit, number, hbasis', hlookup, hnumber⟩ :=
    lookup_solveNumbers hsolving hname
  obtain ⟨rfl, rfl⟩ := Prod.mk.inj (Option.some.inj (hbasis.symm.trans hbasis'))
  refine ⟨number, hlookup, ?_⟩
  rwa [if_congr (exists_before_iff hsplit hsorted) rfl rfl] at hnumber

/-- Nothing is left over in a currency in which a missing number weighs. -/
theorem Fills.number_leftOver (h : t.Fills strict written leftOver solved result)
    (hu : u ∈ t.unknowns) : leftOver.number u.currency = .zero := by
  rw [number_solveNumbers h.solving, if_pos]
  obtain ⟨m, hm, hbasis, -⟩ := (exists_basis_iff (P := fun _ => True)).2
    ⟨u, mem_unknownsIn.2 ⟨hu, rfl⟩, trivial⟩
  exact ⟨m, hm, hbasis⟩

/-- One of several missing numbers has the least name. -/
theorem exists_least {l : List Unknown} (h : l ≠ []) : ∃ u ∈ l, ∀ v ∈ l, u.name ≤ v.name := by
  induction l with
  | nil => exact absurd rfl h
  | cons u l ih =>
    by_cases hl : l = []
    · subst hl
      exact ⟨u, List.mem_cons_self, by simp⟩
    · obtain ⟨v, hv, hleast⟩ := ih hl
      rcases String.le_total u.name v.name with huv | hvu
      · refine ⟨u, List.mem_cons_self, List.forall_mem_cons.2 ⟨String.le_refl _, ?_⟩⟩
        exact fun w hw => String.le_trans huv (hleast w hw)
      · exact ⟨v, List.mem_cons_of_mem u hv, List.forall_mem_cons.2 ⟨hvu, hleast⟩⟩

/-- What the missing numbers in one currency take together, if the one with the least name takes all
and the others nothing. -/
theorem sum_of_least (hnodup : (t.unknowns.map (·.name)).Nodup) (hu : u ∈ t.unknowns) (x : ℚ) :
    ((t.unknownsIn u.currency).map fun v =>
      if ∃ w ∈ t.unknownsIn v.currency, w.name < v.name then 0 else x).sum = x := by
  have hmem : u ∈ t.unknownsIn u.currency := mem_unknownsIn.2 ⟨hu, rfl⟩
  have hcurrency : ∀ v ∈ t.unknownsIn u.currency, v.currency = u.currency :=
    fun v hv => (mem_unknownsIn.1 hv).2
  obtain ⟨least, hleast, hle⟩ := exists_least (List.ne_nil_of_mem hmem)
  have hperm := List.perm_cons_erase hleast
  have hdistinct : ((least :: (t.unknownsIn u.currency).erase least).map (·.name)).Nodup :=
    (hperm.map (·.name)).nodup_iff.1 (hnodup.sublist (List.filter_sublist.map _))
  rw [(hperm.map _).sum_eq, List.map_cons, List.sum_cons, List.sum_eq_zero, add_zero]
  · rw [hcurrency least hleast, if_neg]
    rintro ⟨v, hv, hlt⟩
    exact String.not_le.2 hlt (hle v hv)
  · intro x hx
    obtain ⟨v, hv, rfl⟩ := List.mem_map.1 hx
    have hv' := List.mem_of_mem_erase hv
    have hlt : least.name < v.name := by
      rw [← String.not_le]
      intro hge
      have heq : least.name = v.name := String.le_antisymm (hle v hv') hge
      rw [List.map_cons, heq] at hdistinct
      exact (List.nodup_cons.1 hdistinct).1 (List.mem_map_of_mem hv)
    rw [hcurrency v hv', if_pos ⟨least, hleast, hlt⟩]

/-- Together the missing numbers in one currency take once what is left over there. -/
theorem sum_leftFor (hnodup : (t.unknowns.map (·.name)).Nodup) (written : Totals)
    (hu : u ∈ t.unknowns) :
    ((t.unknownsIn u.currency).map fun v => (t.leftFor written v).value).sum =
      (written.number u.currency).value := by
  refine Eq.trans (congrArg _ (List.map_congr_left fun v hv => ?_)) (sum_of_least hnodup hu _)
  rw [leftFor, apply_ite Decimal.value, Decimal.value_zero, (mem_unknownsIn.1 hv).2]

end Transaction

/-! ## The residual after solving -/

/-- The number that was found for a missing one. -/
def Unknown.found (solved : List (Currency × Decimal)) (u : Unknown) : ℚ :=
  ((solved.lookup u.name).getD .zero).value

/-- What stands in the place of a posting weighs what the posting did, and what its number does that
was missing, in a currency in which nothing is left over. -/
theorem sum_weightIn_completed {p : Posting} {leftOver : Totals} {currency : Currency}
    {solved : List (Currency × Decimal)}
    (hsolvable : ∀ c, p.missingNumber? = some c → p.IsSolvable c)
    (hexact : ∀ q ∈ (completed leftOver solved p).map (·.1), ∃ w, q.weight? = .exact w)
    (hleft : (leftOver.number currency).value = 0) :
    (((completed leftOver solved p).map (·.1)).map (·.weightIn currency)).sum =
      p.weightIn currency +
        p.unknown?.elim 0 fun u =>
          if u.currency = currency then u.weight (u.found solved) else 0 := by
  cases hc : p.missingNumber? with
  | some c =>
    obtain ⟨u, hu, rfl, -⟩ := Posting.exists_unknown hc (hsolvable c hc)
    have hunits := Posting.missingNumber?_eq_some.1 hc
    have hnothing : p.weight? = .exact none := by
      rw [Posting.weight?, Posting.amount?, hunits]
      rfl
    simp only [completed, hunits, List.map_cons, List.map_nil] at hexact ⊢
    obtain ⟨w, hw⟩ := List.forall_mem_singleton.1 hexact
    rw [List.sum_singleton, Posting.weightIn_fill hu hw, Posting.weightIn_of_exact hnothing, hu,
      Option.elim_none, Option.elim_some, zero_add, Unknown.found]
  | none =>
    rw [Posting.unknown?, hc, Option.bind_none, Option.elim_none, add_zero]
    cases hunits : p.units with
    | none =>
      rw [Posting.completed_of_open hunits, sum_weightIn_taking, hleft, neg_zero,
        Posting.weightIn_of_exact (Posting.weight?_of_open hunits), Option.elim_none]
    | some units =>
      rw [Posting.completed_of_number (by rw [hunits, Option.isSome_some]) hc, List.map_cons,
        List.map_nil, List.sum_singleton]

theorem sum_unknown?_elim (ps : List Posting) (g : Unknown → ℚ) (currency : Currency) :
    (ps.map fun p => p.unknown?.elim 0 fun u => if u.currency = currency then g u else 0).sum =
      (((ps.filterMap Posting.unknown?).filter (·.currency = currency)).map g).sum := by
  induction ps with
  | nil => rfl
  | cons p ps ih =>
    rw [List.map_cons, List.sum_cons, ih]
    cases hu : p.unknown? with
    | none => rw [List.filterMap_cons_none hu, Option.elim_none, zero_add]
    | some u =>
      rw [List.filterMap_cons_some hu, List.filter_cons, Option.elim_some]
      by_cases hcurrency : u.currency = currency <;> simp [hcurrency]

namespace Transaction

variable {strict : Bool} {t : Transaction} {written leftOver : Totals} {u : Unknown}
  {solved : List (Currency × Decimal)} {result : Interpolation}

/-- What a transaction weighs in a currency, with numbers for the missing ones. -/
def balance (t : Transaction) (numbers : Unknown → ℚ) (currency : Currency) : ℚ :=
  (t.settled.map (·.weightIn currency)).sum +
    ((t.unknownsIn currency).map fun u => u.weight (numbers u)).sum

/-- What stands in the place of a posting weighs what was written on the posting, and what its
number does that was found. -/
theorem Fills.sum_weightIn (h : t.Fills strict written leftOver solved result)
    (htotal : result.transaction.residual = .exact result.residual) (hu : u ∈ t.unknowns)
    {p : Posting} (hp : p ∈ t.postings) :
    (((completed leftOver solved (p.inContext t.sharedCurrency?)).map (·.1)).map
        (·.weightIn u.currency)).sum =
      (p.inContext t.sharedCurrency?).weightIn u.currency +
        p.unknown?.elim 0 fun v =>
          if v.currency = u.currency then v.weight (v.found solved) else 0 := by
  have hexact := exists_weight_of_residualOf (Checked.gives_true.2 htotal)
  simp only [Checked.gives_true] at hexact
  rw [h.transaction, t.map_standIns] at hexact
  have hleft : (leftOver.number u.currency).value = 0 := by
    rw [h.number_leftOver hu, Decimal.value_zero]
  rw [sum_weightIn_completed ?_ ?_ hleft, Posting.unknown?_inContext]
  · intro c hc
    rw [(p.inContext_eq t.sharedCurrency?).2.2] at hc
    rw [Posting.inContext_of_missingNumber hc]
    exact h.isSolvable hp hc
  · exact fun q hq => hexact q (List.mem_flatMap.2 ⟨p, hp, hq⟩)

/-- In a currency in which a missing number weighs, the residual is the balance with the numbers
that were found. -/
theorem Fills.value_residual (h : t.Fills strict written leftOver solved result)
    (htotal : result.transaction.residual = .exact result.residual) (hu : u ∈ t.unknowns) :
    (result.residual.number u.currency).value =
      t.balance (·.found solved) u.currency := by
  have hpostings : result.transaction.postings = t.postings.flatMap fun p =>
      (completed leftOver solved (p.inContext t.sharedCurrency?)).map (·.1) := by
    rw [h.transaction]
    exact t.map_standIns leftOver solved
  calc (result.residual.number u.currency).value
      = (t.postings.map fun p => (((completed leftOver solved
          (p.inContext t.sharedCurrency?)).map (·.1)).map (·.weightIn u.currency)).sum).sum := by
        rw [Transaction.value_residual htotal, hpostings, List.map_flatMap, List.flatMap_def,
          List.sum_flatten, List.map_map]
        rfl
    _ = (t.postings.map fun p => (p.inContext t.sharedCurrency?).weightIn u.currency +
          p.unknown?.elim 0 fun v =>
            if v.currency = u.currency then v.weight (v.found solved) else 0).sum :=
        congrArg List.sum (List.map_congr_left fun p => h.sum_weightIn htotal hu)
    _ = t.balance (·.found solved) u.currency := by
        rw [List.sum_map_add, sum_unknown?_elim, balance, settled, List.map_map]
        rfl

theorem Fills.nodup_names (h : t.Fills strict written leftOver solved result) :
    (t.unknowns.map (·.name)).Nodup := by
  rw [map_name_unknowns fun p hp c => h.isSolvable hp]
  exact h.nodup

/-- The residual in the currency of a missing number is what costs add there in total, and what
rounding the quotients there leaves over. -/
theorem Fills.value_residual_eq_sum (h : t.Fills strict written leftOver solved result)
    (hsum : t.written = .exact written)
    (htotal : result.transaction.residual = .exact result.residual) (hu : u ∈ t.unknowns) :
    (result.residual.number u.currency).value =
      ((t.unknownsIn u.currency).map fun v => v.added.value + t.shortfall written v).sum := by
  have hwritten : (t.settled.map (·.weightIn u.currency)).sum = (written.number u.currency).value :=
    (value_residualOf hsum u.currency).symm
  rw [h.value_residual htotal hu, balance, hwritten, ← sum_leftFor h.nodup_names written hu,
    ← List.sum_map_add]
  refine congrArg _ (List.map_congr_left fun v hv => ?_)
  obtain ⟨number, hlookup, hquotient⟩ := h.lookup_solved (mem_unknownsIn.1 hv).1
  rw [Unknown.weight, Unknown.found, shortfall, hlookup, hquotient.value?]
  ring

end Transaction

/-- Postings with a currency alone are solved for their own weight. The number for one is the
quotient of what is left over in the currency in which the posting weighs: that of its cost, or else
of its price, or else its own. Provided that all sums and products are exact, and this quotient is,
the residual there is zero after interpolation exactly if these cancel: what the cost adds in total
beside what it says of one unit, the same of the other missing numbers there, and what rounding
their quotients leaves over. -/
theorem residual_solved_iff {t : Transaction} {result : Interpolation} {written : Totals}
    (h : t.interpolate.run.value? = some (.ok result)) (hwritten : t.written = .exact written)
    (hresidual : result.transaction.residual = .exact result.residual)
    {p : Posting} {c : Currency} (hp : p ∈ t.postings) (hc : p.units = some (.currencyOnly c)) :
    ∃ u number, p.unknown? = some u ∧ u.currency = p.contextCurrency?.getD c ∧
      (t.quotient written u).value? = some number ∧
      p.fill ⟨number, c⟩ ∈ result.transaction.postings ∧
      (t.quotient written u = .exact number →
        ((result.residual.number u.currency).isZero ↔
          u.added.value + (((t.unknownsIn u.currency).erase u).map fun v =>
            v.added.value + t.shortfall written v).sum = 0)) := by
  obtain ⟨written', leftOver, solved, hfills⟩ :=
    Transaction.interpolate_gives.1 (Checked.gives_false.2 h)
  obtain rfl : written = written' := by
    simpa [hwritten] using Checked.gives_false.1 hfills.sum
  have hmissing := Posting.missingNumber?_eq_some.2 hc
  obtain ⟨u, hu, rfl, hzero⟩ := Posting.exists_unknown hmissing (hfills.isSolvable hp hmissing)
  have hmem : u ∈ t.unknowns := Transaction.mem_unknowns.2 ⟨p, hp, hu⟩
  obtain ⟨number, hlookup, hnumber⟩ := hfills.lookup_solved hmem
  refine ⟨u, number, hu, ?_, Checked.gives_false.1 hnumber, ?_, ?_⟩
  · exact Posting.basis?_currency (Posting.unknown?_eq_some.1 hu).2.1
  · rw [hfills.transaction, t.map_standIns]
    refine List.mem_flatMap.2 ⟨p, hp, ?_⟩
    rw [Posting.inContext_of_missingNumber hmissing, completed, hc]
    simp [hlookup]
  · intro hexact
    have hperm := List.perm_cons_erase (Transaction.mem_unknownsIn.2 ⟨hmem, rfl⟩)
    rw [Decimal.isZero_iff, hfills.value_residual_eq_sum hwritten hresidual hmem,
      (hperm.map _).sum_eq, List.map_cons, List.sum_cons,
      Transaction.shortfall_of_exact hexact hzero, add_zero]

/-- Shares bought at a cost that have a price, too, and changed money. -/
def currencyPurchase : Transaction where
  postings := [
    { account := "Assets:Shares"
      units := some (.currencyOnly "ACME")
      cost := some { perUnit := some (.ofNat 3), currency := some "USD" }
      price := some (.unit ⟨.ofNat 4, "GBP"⟩) },
    { account := "Assets:Euros"
      units := some (.currencyOnly "EUR")
      price := some (.unit ⟨.written "1.25", "GBP"⟩) },
    .plain "Assets:Dollars" (.written "-30.00") "USD",
    .plain "Assets:Pounds" (.written "-10") "GBP"]

theorem interpolate_currencyPurchase :
    ∃ result, currencyPurchase.interpolate.run = .exact (.ok result) ∧
      result.transaction.postings.map (·.amount?.map Amount.text) =
        [some "10.00 ACME", some "8 EUR", some "-30.00 USD", some "-10 GBP"] := by
  have hsettled : currencyPurchase.postings.mapM (·.withCurrency currencyPurchase.sharedCurrency?) =
      pure currencyPurchase.settled := rfl
  have hmissing : missingNumbers currencyPurchase.settled = _ :=
    missingNumbers_of_pairwise (by decide +kernel)
  refine exists_exact_of_any ?_
  unfold Transaction.interpolate
  rw [hsettled, pure_bind]
  simp only [hmissing]
  decide +kernel

theorem residual_solved_iff_currencyPurchase :
    ∃ p ∈ currencyPurchase.postings, p.units = some (.currencyOnly "ACME") ∧
    ∃ result written, currencyPurchase.interpolate.run.value? = some (.ok result) ∧
      currencyPurchase.written = .exact written ∧
      result.transaction.residual = .exact result.residual ∧
      p.fill ⟨.written "10.00", "ACME"⟩ ∈ result.transaction.postings ∧
      (result.residual.number "USD").isZero := by
  obtain ⟨p, hp, hunits, hunknown⟩ : ∃ p ∈ currencyPurchase.postings,
      p.units = some (.currencyOnly "ACME") ∧
      p.unknown? = some ⟨"ACME", "USD", .ofNat 3, .zero⟩ := by decide +kernel
  obtain ⟨result, hresult, -⟩ := interpolate_currencyPurchase
  obtain ⟨written, leftOver, solved, hfills⟩ :=
    Transaction.interpolate_gives.1 (Checked.gives_true.2 hresult)
  have hwritten := Checked.gives_true.1 hfills.sum
  have hresidual := Checked.gives_true.1 hfills.residual
  have hvalue : currencyPurchase.interpolate.run.value? = some (.ok result) := by
    rw [hresult, Checked.value?_exact]
  obtain ⟨u, number, hu, -, hnumber, hfill, hzero⟩ :=
    residual_solved_iff hvalue hwritten hresidual hp hunits
  obtain rfl := Option.some.inj (hunknown.symm.trans hu)
  have hquotient : currencyPurchase.written.value?.map (fun w =>
      currencyPurchase.quotient w ⟨"ACME", "USD", .ofNat 3, .zero⟩) =
        some (.exact (.written "10.00")) := by
    decide +kernel
  rw [hwritten, Checked.value?_exact, Option.map_some, Option.some_inj] at hquotient
  rw [hquotient] at hnumber hzero
  obtain rfl := Option.some.inj hnumber
  have hothers : (currencyPurchase.unknownsIn "USD").erase
      ⟨"ACME", "USD", .ofNat 3, .zero⟩ = [] := by
    decide +kernel
  refine ⟨p, hp, hunits, result, written, hvalue, hwritten, hresidual, hfill, ?_⟩
  rw [hzero rfl, hothers]
  simp

/-- Shares bought at a cost of 2 dollars each with 5 dollars on top, all for 25 dollars. -/
def purchaseWithFee : Transaction where
  postings := [
    { account := "Assets:Shares"
      units := some (.currencyOnly "ACME")
      cost := some
        { perUnit := some (.ofNat 2), total := some (.ofNat 5), currency := some "USD" } },
    .plain "Assets:Cash" (.written "-25") "USD"]

/-- Ten shares would cost 25 dollars with what comes on top. Interpolation finds 12.5 and leaves 5
dollars over, though it computes all numbers exactly. -/
theorem residual_purchaseWithFee :
    purchaseWithFee.postings.map Posting.weighsIn? = [some "USD", none] ∧
    ∃ result, purchaseWithFee.interpolate.run = .exact (.ok result) ∧
      result.transaction.postings.map (·.amount?.map Amount.text) =
        [some "12.50 ACME", some "-25 USD"] ∧
      result.residual.toList.map (fun e => (e.1, e.2.text)) = [("USD", "5.00")] := by
  refine ⟨by decide +kernel, exists_exact_of_any ?_⟩
  decide +kernel

end DoubleEntry
