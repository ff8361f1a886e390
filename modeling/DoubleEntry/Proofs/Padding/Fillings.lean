import DoubleEntry.Proofs.Padding.Assertion

/-!
# What pads fill

The padding transactions stand for the assertions at which a pad fills a currency: the last pad of
the account, at the first assertion on the account in the currency after it, if more is missing than
the tolerance allows. They come in the order of these assertions.

* `Padding.Meets`: the pad that an assertion may use, told by the directives before it alone;
  `padFor?_iff_meets` says that it is the one that padding finds.
* `Padding.Filling`: a padding transaction with the place where it was made.
* `Padding.tracked`: what the account of an assertion holds there.
* `Padding.Corresponds`: one filling for each place that calls for one, and no other.
-/

namespace DoubleEntry

namespace Padding

variable {strict : Bool} {s s' : State} {d e : Directive} {b : Assertion} {p q : DatedPad}
  {seen before after : List Directive}

/-! ## The pad that an assertion may use -/

/-- The pad is the last one of the account before an assertion, and no other assertion on the
account in its currency stands between the two. -/
def Meets (before : List Directive) (b : Assertion) (p : DatedPad) : Prop :=
  ∃ earlier between, before = earlier ++ p.directive :: between ∧ p.pad.account = b.account ∧
    (∀ d ∈ between, ∀ p', d.body = .pad p' → p'.account ≠ b.account) ∧
    ∀ d ∈ between, ∀ b', d.body = .balance b' → b'.account = b.account →
      b'.amount.currency ≠ b.amount.currency

/-- The last directive is that of a place, or it comes after. -/
theorem snoc_eq_append_cons (h : seen ++ [e] = before ++ d :: after) :
    before = seen ∧ d = e ∧ after = [] ∨
      ∃ rest, after = rest ++ [e] ∧ seen = before ++ d :: rest := by
  rcases List.eq_nil_or_concat after with rfl | ⟨rest, last, rfl⟩
  · obtain ⟨rfl, hd⟩ := List.append_inj' h rfl
    exact .inl ⟨rfl, (List.singleton_inj.1 hd).symm, rfl⟩
  · rw [List.concat_eq_append, ← List.cons_append, ← List.append_assoc] at h
    obtain ⟨rfl, hlast⟩ := List.append_inj' h rfl
    exact .inr ⟨rest, by rw [List.singleton_inj.1 hlast, List.concat_eq_append], rfl⟩

theorem meets_snoc : Meets (seen ++ [d]) b p ↔
    d = p.directive ∧ p.pad.account = b.account ∨
      Meets seen b p ∧ (∀ p', d.body = .pad p' → p'.account ≠ b.account) ∧
        ∀ b', d.body = .balance b' → b'.account = b.account →
          b'.amount.currency ≠ b.amount.currency := by
  constructor
  · rintro ⟨earlier, between, hsplit, haccount, hpad, hassertion⟩
    rcases snoc_eq_append_cons hsplit with ⟨rfl, hd, rfl⟩ | ⟨rest, rfl, rfl⟩
    · exact .inl ⟨hd.symm, haccount⟩
    · obtain ⟨hpad, hlast⟩ := List.forall_mem_append.1 hpad
      obtain ⟨hassertion, hlast'⟩ := List.forall_mem_append.1 hassertion
      exact .inr ⟨⟨earlier, rest, rfl, haccount, hpad, hassertion⟩,
        hlast d (List.mem_singleton_self d), hlast' d (List.mem_singleton_self d)⟩
  · rintro (⟨rfl, haccount⟩ | ⟨⟨earlier, between, rfl, haccount, hpad, hassertion⟩, hlast, hlast'⟩)
    · exact ⟨seen, [], rfl, haccount, by simp, by simp⟩
    · refine ⟨earlier, between ++ [d], by simp, haccount, ?_, ?_⟩
      · exact List.forall_mem_append.2 ⟨hpad, List.forall_mem_singleton.2 hlast⟩
      · exact List.forall_mem_append.2 ⟨hassertion, List.forall_mem_singleton.2 hlast'⟩

/-- A pad that applies and has not been used in the currency of the assertion. -/
def IsFresh (active : Option Active) (b : Assertion) (p : DatedPad) : Prop :=
  ∃ pad, active = some pad ∧ pad.entry = p ∧ b.amount.currency ∉ pad.used

theorem Active.entry_after (pad : Active) (b : Assertion) : (pad.after b).entry = pad.entry := by
  unfold after
  split <;> rfl

theorem Active.not_mem_used_after {pad : Active} {b : Assertion} {c : Currency} :
    c ∉ (pad.after b).used ↔ c ∉ pad.used ∧ b.amount.currency ≠ c := by
  unfold after
  split
  · next hused =>
    refine ⟨fun h => ⟨h, ?_⟩, And.left⟩
    rintro rfl
    exact h hused
  · simp [eq_comm]

theorem isFresh_after {active : Option Active} {b' : Assertion} :
    IsFresh (active.map (·.after b')) b p ↔
      IsFresh active b p ∧ b'.amount.currency ≠ b.amount.currency := by
  constructor
  · rintro ⟨_, hpad, rfl, hfresh⟩
    obtain ⟨pad, rfl, rfl⟩ := Option.map_eq_some_iff.1 hpad
    obtain ⟨hfresh, hne⟩ := Active.not_mem_used_after.1 hfresh
    exact ⟨⟨pad, rfl, (pad.entry_after b').symm, hfresh⟩, hne⟩
  · rintro ⟨⟨pad, rfl, rfl, hfresh⟩, hne⟩
    exact ⟨pad.after b', rfl, pad.entry_after b', Active.not_mem_used_after.2 ⟨hfresh, hne⟩⟩

theorem isFresh_nextActive {active : Option Active} : IsFresh (nextActive b.account active d) b p ↔
    d = p.directive ∧ p.pad.account = b.account ∨
      IsFresh active b p ∧ (∀ p', d.body = .pad p' → p'.account ≠ b.account) ∧
        ∀ b', d.body = .balance b' → b'.account = b.account →
          b'.amount.currency ≠ b.amount.currency := by
  unfold nextActive
  split
  · next p' hbody =>
    by_cases haccount : p'.account = b.account
    · rw [if_pos haccount]
      constructor
      · rintro ⟨pad, hpad, rfl, -⟩
        obtain rfl := Option.some.inj hpad
        exact .inl ⟨by rw [DatedPad.directive, ← hbody], haccount⟩
      · rintro (⟨rfl, -⟩ | ⟨-, hpad, -⟩)
        · obtain rfl := Directive.Body.pad.inj hbody
          exact ⟨_, rfl, rfl, List.not_mem_nil⟩
        · exact absurd haccount (hpad p' hbody)
    · rw [if_neg haccount]
      constructor
      · intro h
        refine .inr ⟨h, fun p'' hbody' => ?_, fun b' hbody' => ?_⟩
        · obtain rfl := Directive.Body.pad.inj (hbody.symm.trans hbody')
          exact haccount
        · rw [hbody] at hbody'
          cases hbody'
      · rintro (⟨rfl, haccount'⟩ | ⟨h, -, -⟩)
        · obtain rfl := Directive.Body.pad.inj hbody
          exact absurd haccount' haccount
        · exact h
  · next b' hbody =>
    have hnot : ¬(d = p.directive ∧ p.pad.account = b.account) := by
      rintro ⟨rfl, -⟩
      cases hbody
    have hpad : ∀ p', d.body = .pad p' → p'.account ≠ b.account := by simp [hbody]
    rw [or_iff_right hnot, and_iff_right hpad]
    by_cases haccount : b'.account = b.account
    · rw [if_pos haccount, isFresh_after]
      refine and_congr_right fun _ => ⟨fun hne b'' hbody' _ => ?_, fun h => h b' hbody haccount⟩
      obtain rfl := Directive.Body.balance.inj (hbody.symm.trans hbody')
      exact hne
    · rw [if_neg haccount, and_iff_left]
      intro b'' hbody'
      obtain rfl := Directive.Body.balance.inj (hbody.symm.trans hbody')
      exact fun h => absurd h haccount
  · next hpad hassertion =>
    have hnot : ¬(d = p.directive ∧ p.pad.account = b.account) := by
      rintro ⟨rfl, -⟩
      exact hpad p.pad rfl
    rw [or_iff_right hnot]
    exact (and_iff_left ⟨fun p' hbody => absurd hbody (hpad p'),
      fun b' hbody => absurd hbody (hassertion b')⟩).symm

/-- The pad that an assertion meets is told by the directives before it. -/
theorem padFor?_iff_meets (h : (run before).Gives strict s) :
    (∃ pad, s.padFor? b = some pad ∧ pad.entry = p) ↔ Meets before b p := by
  have hfresh : (∃ pad, s.padFor? b = some pad ∧ pad.entry = p) ↔
      IsFresh s.active[b.account]? b p := by
    simp only [IsFresh, padFor?_eq_some]
    refine exists_congr fun pad => ?_
    tauto
  have hnone : ({} : State).active[b.account]? = none := by simp
  rw [hfresh, active_foldlM h, hnone]
  clear h hfresh hnone
  induction before using List.reverseRecOn with
  | nil => simp [IsFresh, Meets]
  | append_singleton before d ih =>
    rw [List.foldl_append, List.foldl_cons, List.foldl_nil]
    exact (isFresh_nextActive.trans (or_congr_right (and_congr_left' ih))).trans meets_snoc.symm

/-! ## Fillings -/

/-- A padding transaction and what it was made for. -/
structure Filling where
  /-- The directives before the assertion. -/
  before : List Directive
  assertion : Assertion
  pad : DatedPad
  /-- What is asserted, less what was there. -/
  difference : Decimal

/-- The transaction of a filling. -/
def Filling.transaction (f : Filling) : Directive :=
  f.pad.transaction f.assertion.amount ⟨f.difference, f.assertion.amount.currency⟩

variable {fillings : List Filling} {f g : Filling} {difference : Decimal}

/-- What the account of an assertion itself holds in its currency after some directives: what these
have moved, and the fillings at assertions among them. -/
def tracked (fillings : List Filling) (before : List Directive) (b : Assertion) : ℚ :=
  posted
    ((before ++ (fillings.filter (·.before.length < before.length)).map
      Filling.transaction).flatMap Directive.postings)
    (· == b.account) b.amount.currency

/-- An assertion meets the pad, and more is missing than its tolerance allows. -/
def CallsFor (fillings : List Filling) (before : List Directive) (b : Assertion)
    (p : DatedPad) : Prop :=
  Meets before b p ∧ ∃ tolerance, b.effectiveTolerance = .exact tolerance ∧
    tolerance.value < |b.amount.number.value - tracked fillings before b|

/-- The fillings are those that the assertions among some directives call for, one for each, in
their order. Each brings what is missing. -/
structure Corresponds (seen : List Directive) (fillings : List Filling) : Prop where
  ordered : fillings.Pairwise fun f g => f.before.length < g.before.length
  place : ∀ f ∈ fillings, ∃ d after, seen = f.before ++ d :: after ∧ d.body = .balance f.assertion
  called : ∀ before d after b p, seen = before ++ d :: after → d.body = .balance b →
    ((∃ f ∈ fillings, f.before = before ∧ f.pad = p) ↔ CallsFor fillings before b p)
  difference : ∀ f ∈ fillings,
    f.difference.value = f.assertion.amount.number.value - tracked fillings f.before f.assertion

theorem Corresponds.length_lt (h : Corresponds seen fillings) (hf : f ∈ fillings) :
    f.before.length < seen.length := by
  obtain ⟨d, after, rfl, -⟩ := h.place f hf
  simp

/-- Later fillings do not count. -/
theorem tracked_append {later : List Filling} (h : ∀ g ∈ later, before.length ≤ g.before.length) :
    tracked (fillings ++ later) before b = tracked fillings before b := by
  have hnone : later.filter (·.before.length < before.length) = [] :=
    List.filter_eq_nil_iff.2 fun g hg => by simpa using h g hg
  unfold tracked
  rw [List.filter_append, hnone, List.append_nil]

theorem callsFor_append {later : List Filling}
    (h : ∀ g ∈ later, before.length ≤ g.before.length) :
    CallsFor (fillings ++ later) before b p ↔ CallsFor fillings before b p := by
  unfold CallsFor
  rw [tracked_append h]

/-- After all of the assertions, all fillings count. -/
theorem Corresponds.tracked_eq (h : Corresponds seen fillings) :
    tracked fillings seen b =
      posted ((seen ++ fillings.map Filling.transaction).flatMap Directive.postings)
        (· == b.account) b.amount.currency := by
  unfold tracked
  rw [List.filter_eq_self.2 fun f hf => decide_eq_true (h.length_lt hf)]

/-- A directive that calls for no filling. -/
theorem Corresponds.snoc_none (h : Corresponds seen fillings)
    (hnone : ∀ b, d.body = .balance b → ∀ p, ¬CallsFor fillings seen b p) :
    Corresponds (seen ++ [d]) fillings where
  ordered := h.ordered
  place f hf := by
    obtain ⟨d', after, hsplit, hbody⟩ := h.place f hf
    exact ⟨d', after ++ [d], by rw [hsplit]; simp, hbody⟩
  called before d' after b p hsplit hbody := by
    rcases snoc_eq_append_cons hsplit with ⟨rfl, rfl, -⟩ | ⟨rest, -, hseen⟩
    · refine iff_of_false ?_ (hnone b hbody p)
      rintro ⟨f, hf, heq, -⟩
      have hlt := h.length_lt hf
      rw [heq] at hlt
      exact lt_irrefl _ hlt
    · exact h.called before d' rest b p hseen hbody
  difference := h.difference

/-- An assertion that calls for a filling. -/
theorem Corresponds.snoc_some (h : Corresponds seen fillings) (hbody : d.body = .balance b)
    (hcalls : CallsFor fillings seen b p) (honly : ∀ q, Meets seen b q → q = p)
    (hdifference : difference.value = b.amount.number.value - tracked fillings seen b) :
    Corresponds (seen ++ [d]) (fillings ++ [⟨seen, b, p, difference⟩]) where
  ordered := by
    refine List.pairwise_append.2 ⟨h.ordered, List.pairwise_singleton _ _, fun f hf g hg => ?_⟩
    rw [List.mem_singleton.1 hg]
    exact h.length_lt hf
  place := by
    refine List.forall_mem_append.2 ⟨fun f hf => ?_, List.forall_mem_singleton.2 ?_⟩
    · obtain ⟨d', after, hsplit, hbody⟩ := h.place f hf
      exact ⟨d', after ++ [d], by rw [hsplit]; simp, hbody⟩
    · exact ⟨d, [], rfl, hbody⟩
  called before d' after b' q hsplit hbody' := by
    have hfound : (∃ f ∈ fillings ++ [⟨seen, b, p, difference⟩], f.before = before ∧ f.pad = q) ↔
        (∃ f ∈ fillings, f.before = before ∧ f.pad = q) ∨ seen = before ∧ p = q := by
      simp [or_and_right, exists_or]
    have hlate : before.length ≤ seen.length := by
      rcases snoc_eq_append_cons hsplit with ⟨rfl, -⟩ | ⟨rest, -, rfl⟩ <;> simp
    rw [hfound, callsFor_append (List.forall_mem_singleton.2 hlate)]
    rcases snoc_eq_append_cons hsplit with ⟨rfl, rfl, -⟩ | ⟨rest, -, hseen⟩
    · obtain rfl := Directive.Body.balance.inj (hbody.symm.trans hbody')
      constructor
      · rintro (⟨f, hf, heq, -⟩ | ⟨-, rfl⟩)
        · have hlt := h.length_lt hf
          rw [heq] at hlt
          exact absurd hlt (lt_irrefl _)
        · exact hcalls
      · intro hq
        exact .inr ⟨rfl, (honly q hq.1).symm⟩
    · have hshorter : before.length < seen.length := by simp [hseen]
      have hne : ¬(seen = before ∧ p = q) := fun heq => hshorter.ne (congrArg _ heq.1).symm
      rw [or_iff_left hne]
      exact h.called before d' rest b' q hseen hbody'
  difference := by
    refine List.forall_mem_append.2 ⟨fun f hf => ?_, List.forall_mem_singleton.2 ?_⟩
    · rw [tracked_append (List.forall_mem_singleton.2 (h.length_lt hf).le)]
      exact h.difference f hf
    · rw [tracked_append (List.forall_mem_singleton.2 le_rfl)]
      exact hdifference

/-- A filling leaves what is asserted, if its pad does not take from the account. -/
theorem Corresponds.tracked_after (h : Corresponds seen fillings) (hf : f ∈ fillings)
    (hsplit : seen = f.before ++ d :: after) (hsource : f.pad.pad.source ≠ f.pad.pad.account) :
    tracked fillings (f.before ++ [d]) f.assertion = f.assertion.amount.number.value := by
  obtain ⟨d', after', hsplit', hbody⟩ := h.place f hf
  obtain ⟨rfl, rfl⟩ := List.cons.inj (List.append_cancel_left (hsplit.symm.trans hsplit'))
  have haccount : f.pad.pad.account = f.assertion.account := by
    obtain ⟨⟨earlier, between, -, haccount, -⟩, -⟩ :=
      (h.called f.before d after f.assertion f.pad hsplit hbody).1 ⟨f, hf, rfl, rfl⟩
    exact haccount
  have hdifference := h.difference f hf
  obtain ⟨earlier, later, rfl⟩ := List.append_of_mem hf
  obtain ⟨-, hlater, hearlier⟩ := List.pairwise_append.1 h.ordered
  have hafter := (List.pairwise_cons.1 hlater).1
  -- Of the fillings, those before this one count up to it, and with it those after it do not.
  have hupto : tracked (earlier ++ f :: later) (f.before ++ [d]) f.assertion =
      tracked (earlier ++ f :: later) f.before f.assertion +
        posted f.transaction.postings (· == f.assertion.account) f.assertion.amount.currency := by
    have hbefore :
        (earlier ++ f :: later).filter (·.before.length < f.before.length) = earlier := by
      rw [List.filter_append, List.filter_eq_self.2, List.filter_eq_nil_iff.2, List.append_nil]
      · simpa using fun g hg => (hafter g hg).le
      · exact fun g hg => decide_eq_true (hearlier g hg f List.mem_cons_self)
    have hwith : (earlier ++ f :: later).filter (·.before.length < (f.before ++ [d]).length) =
        earlier ++ [f] := by
      rw [List.filter_append, List.filter_eq_self.2, List.filter_cons_of_pos (by simp),
        List.filter_eq_nil_iff.2]
      · simpa using fun g hg => Nat.succ_le_of_lt (hafter g hg)
      · intro g hg
        have hlt := hearlier g hg f List.mem_cons_self
        rw [List.length_append, decide_eq_true_iff]
        omega
    have hd : d.postings = [] := Directive.postings_eq_nil (by simp [hbody])
    unfold tracked
    rw [hbefore, hwith]
    simp [hd, add_assoc]
  have hposted : posted f.transaction.postings (· == f.assertion.account)
      f.assertion.amount.currency = f.difference.value := by
    rw [Filling.transaction, posted_transaction _ _ _ _ _ (haccount ▸ hsource), if_pos haccount,
      Amount.inCurrency, if_pos rfl]
  rw [hupto, hposted, hdifference]
  ring

/-! ## The run -/

/-- What the fillings leave in an account is what padding has for it. -/
def Tracks (seen : List Directive) (fillings : List Filling) : Prop :=
  ∀ before after, seen = before ++ after → ∃ s, run before = .exact s ∧
    ∀ b, (s.held b).value = tracked fillings before b

theorem Corresponds.value_held (h : Corresponds seen fillings) (hrun : run seen = .exact s)
    (hmade : s.transactions = fillings.map Filling.transaction) (b : Assertion) :
    (s.held b).value = tracked fillings seen b := by
  rw [Padding.value_held hrun, h.tracked_eq, hmade]

/-- The fillings at the next directive go with those so far. -/
theorem State.Step.exists_corresponds (h : s.Step true d s') (hrun : run seen = .exact s)
    (hmade : s.transactions = fillings.map Filling.transaction)
    (hseen : Corresponds seen fillings) :
    ∃ made, (∀ g ∈ made, g.before = seen) ∧
      s'.transactions = (fillings ++ made).map Filling.transaction ∧
      Corresponds (seen ++ [d]) (fillings ++ made) := by
  have hheld := hseen.value_held hrun hmade
  have hmeets {b : Assertion} {p : DatedPad} :=
    padFor?_iff_meets (b := b) (p := p) (Checked.gives_true.2 hrun)
  have hkept (hnone : ∀ b, d.body = .balance b → ∀ p, ¬CallsFor fillings seen b p)
      (hsame : s'.transactions = s.transactions) : ∃ made, (∀ g ∈ made, g.before = seen) ∧
        s'.transactions = (fillings ++ made).map Filling.transaction ∧
        Corresponds (seen ++ [d]) (fillings ++ made) := by
    refine ⟨[], by simp, ?_⟩
    rw [List.append_nil]
    exact ⟨hsame.trans hmade, hseen.snoc_none hnone⟩
  cases h with
  | post hpad hbalance => exact hkept (fun b hbody => absurd hbody (hbalance b)) rfl
  | pad hbody' =>
    refine hkept (fun b hbody => ?_) rfl
    rw [hbody'] at hbody
    cases hbody
  | @pass b hbody' hnone =>
    refine hkept (fun b' hbody p hcalls => ?_) rfl
    obtain rfl := Directive.Body.balance.inj (hbody'.symm.trans hbody)
    obtain ⟨pad, hpad, -⟩ := hmeets.2 hcalls.1
    rw [hnone] at hpad
    cases hpad
  | @cover b pad difference tolerance hbody' hpad hdifference htolerance hle =>
    refine hkept (fun b' hbody p hcalls => ?_) rfl
    obtain rfl := Directive.Body.balance.inj (hbody'.symm.trans hbody)
    obtain ⟨-, tolerance', htolerance', hlt⟩ := hcalls
    obtain rfl := Checked.exact.inj ((Checked.gives_true.1 htolerance).symm.trans htolerance')
    rw [Decimal.le_iff, Decimal.value_abs, Decimal.value_sub (Checked.gives_true.1 hdifference),
      hheld] at hle
    exact hle.not_gt hlt
  | @fill b pad difference tolerance t h hbody hpad hdifference htolerance hgt ht =>
    have hvalue := Decimal.value_sub (Checked.gives_true.1 hdifference)
    rw [hheld] at hvalue
    rw [Decimal.le_iff, Decimal.value_abs, hvalue, not_le] at hgt
    have honly : ∀ q, Meets seen b q → q = pad.entry := by
      intro q hq
      obtain ⟨pad', hpad', rfl⟩ := hmeets.2 hq
      rw [Option.some.inj (hpad.symm.trans hpad')]
    refine ⟨[⟨seen, b, pad.entry, difference⟩], by simp, ?_, ?_⟩
    · rw [List.map_append, ← hmade, ht]
      rfl
    · exact hseen.snoc_some hbody
        ⟨hmeets.1 ⟨pad, hpad, rfl⟩, tolerance, Checked.gives_true.1 htolerance, hgt⟩ honly hvalue

/-- The transactions that a run has made are the fillings that its directives call for. -/
theorem exists_corresponds (h : run seen = .exact s) :
    ∃ fillings, s.transactions = fillings.map Filling.transaction ∧ Corresponds seen fillings ∧
      Tracks seen fillings := by
  refine (Checked.foldlM_invariant (fun seen (s : State) => run seen = .exact s ∧
    ∃ fillings, s.transactions = fillings.map Filling.transaction ∧ Corresponds seen fillings ∧
      Tracks seen fillings) ⟨rfl, [], rfl, ?_, ?_⟩ ?_ (Checked.gives_true.2 h)).2
  · exact ⟨.nil, by simp, by simp, by simp⟩
  · intro before after hsplit
    obtain ⟨rfl, rfl⟩ := List.append_eq_nil_iff.1 hsplit.symm
    exact ⟨{}, rfl, fun b => Padding.value_held rfl b⟩
  · rintro seen s d s' ⟨hrun, fillings, hmade, hseen, htracks⟩ hstep
    obtain ⟨made, hplace, hmade', hseen'⟩ :=
      (step_of_gives hstep).exists_corresponds hrun hmade hseen
    have hrun' : run (seen ++ [d]) = .exact s' :=
      Checked.gives_true.1 (run_append (Checked.gives_true.2 hrun)
        (Checked.bind_gives.2 ⟨s', hstep, Checked.exact_gives.2 rfl⟩))
    refine ⟨hrun', fillings ++ made, hmade', hseen', fun before after hsplit => ?_⟩
    rcases List.eq_nil_or_concat after with rfl | ⟨rest, last, rfl⟩
    · rw [List.append_nil] at hsplit
      subst hsplit
      exact ⟨s', hrun', hseen'.value_held hrun' hmade'⟩
    · rw [List.concat_eq_append, ← List.append_assoc] at hsplit
      obtain ⟨rfl, -⟩ := List.append_inj' hsplit rfl
      obtain ⟨s₀, hs₀, hheld⟩ := htracks before rest rfl
      refine ⟨s₀, hs₀, fun b => ?_⟩
      rw [hheld, tracked_append fun g hg => by simp [hplace g hg]]

end Padding

/-- Provided that every operation is exact, the padding transactions correspond, one to one and in
order, to the assertions that call for one: those that meet a pad and miss more than their
tolerance. What is missing is measured against what padding has for the account alone. The
transaction is dated as its pad and brings the difference to the account of the pad from the source.
If these are two accounts, the first one holds exactly what is asserted after that. -/
theorem padding_corresponds {l transactions : List Directive} {unused : List DatedPad}
    (h : padding l = .exact (transactions, unused)) :
    ∃ fillings : List Padding.Filling,
      transactions = fillings.map Padding.Filling.transaction ∧
      Padding.Corresponds (Directive.sort l) fillings ∧
      Padding.Tracks (Directive.sort l) fillings ∧
      ∀ f ∈ fillings, f.transaction.date = f.pad.date ∧
        f.transaction.postings.map (fun p => (p.account, p.amount?)) =
          [(f.pad.pad.account, some ⟨f.difference, f.assertion.amount.currency⟩),
            (f.pad.pad.source, some ⟨f.difference.neg, f.assertion.amount.currency⟩)] ∧
        ∀ d after, Directive.sort l = f.before ++ d :: after →
          f.pad.pad.source ≠ f.pad.pad.account →
          Padding.tracked fillings (f.before ++ [d]) f.assertion =
            f.assertion.amount.number.value := by
  obtain ⟨s, hrun, rfl⟩ := padding_gives (Checked.gives_true.2 h)
  obtain ⟨fillings, hmade, hcorresponds, htracks⟩ :=
    Padding.exists_corresponds (Checked.gives_true.1 hrun)
  refine ⟨fillings, hmade, hcorresponds, htracks, fun f hf => ⟨rfl, rfl, ?_⟩⟩
  exact fun d after hsplit hsource => hcorresponds.tracked_after hf hsplit hsource

/-- A pad is used for dollars by the first of two assertions, and for euros, of which nothing is
missing. -/
def refilled : List Directive := [
  (Directive.Body.pad ⟨"Assets:Cash", "Equity:Opening"⟩).on 0,
  (Directive.Body.balance ⟨"Assets:Cash", ⟨.ofNat 100, "USD"⟩, none⟩).on 1,
  (Directive.Body.balance ⟨"Assets:Cash", ⟨.zero, "EUR"⟩, none⟩).on 1,
  (Directive.Body.balance ⟨"Assets:Cash", ⟨.ofNat 150, "USD"⟩, none⟩).on 2]
where
  transfer : Directive :=
    DatedPad.transaction ⟨.afterNewYear 0, {}, ⟨"Assets:Cash", "Equity:Opening"⟩⟩
      ⟨.ofNat 100, "USD"⟩ ⟨.ofNat 100, "USD"⟩

theorem padding_corresponds_refilled :
    ∃ unused, padding refilled = .exact ([refilled.transfer], unused) ∧
      ∃ fillings : List Padding.Filling,
        [refilled.transfer] = fillings.map Padding.Filling.transaction ∧
        Padding.Corresponds refilled fillings := by
  have hsort : Directive.sort refilled = refilled := Directive.sort_of_isSorted (by decide +kernel)
  obtain ⟨s, hs, htransactions⟩ : ∃ s, Padding.run refilled = .exact s ∧
      s.transactions = [refilled.transfer] := by decide +kernel
  have hpadding : padding refilled = .exact ([refilled.transfer], s.allUnused) := by
    simp [padding, hsort, hs, htransactions]
  obtain ⟨fillings, hmade, hcorresponds, -⟩ := padding_corresponds hpadding
  exact ⟨s.allUnused, hpadding, fillings, hmade, hsort ▸ hcorresponds⟩

end DoubleEntry
