import DoubleEntry.Booking.Padding
import DoubleEntry.Proofs.Holdings

/-!
# How pads are gone through

All that one directive can do to the state is in `Padding.State.Step`; what a run leaves follows
from it. A strict run does not round, others may.

* `movedBy_run`: the accounts hold what the directives gone through and the padding transactions
  have moved.
* `exists_assertion_of_transactions`: where a padding transaction was made.
* `active_foldlM`: the pad that applies to an account does not depend on what the accounts hold.
-/

namespace DoubleEntry

namespace DatedPad

/-- The pad as it stands in the ledger. -/
def directive (p : DatedPad) : Directive := ⟨p.date, p.metadata, .pad p.pad⟩

/-- What the padding transaction moves. -/
theorem postings_transaction (p : DatedPad) (asserted difference : Amount) :
    (p.transaction asserted difference).postings = [
      { account := p.pad.account, units := some (.complete difference), flag := some Flag.padding },
      { account := p.pad.source, units := some (.complete difference.neg),
        flag := some Flag.padding }] := rfl

@[simp] theorem date_transaction (p : DatedPad) (asserted difference : Amount) :
    (p.transaction asserted difference).date = p.date := rfl

theorem body_transaction (p : DatedPad) (asserted difference : Amount) :
    ∃ t, (p.transaction asserted difference).body = .transaction t := ⟨_, rfl⟩

end DatedPad

namespace Padding

variable {strict : Bool} {s s' : State} {d : Directive} {seen : List Directive}

/-! ## One step -/

/-- What a directive makes of a state. -/
inductive State.Step (strict : Bool) (s : State) (d : Directive) : State → Prop
  /-- A transaction moves what it moves, and most directives move nothing. -/
  | post {h : Holdings} (hpad : ∀ p, d.body ≠ .pad p) (hbalance : ∀ b, d.body ≠ .balance b)
      (hh : (s.holdings.addPostings d.postings).Gives strict h) :
      Step strict s d { s with holdings := h }
  /-- A pad applies from now on. -/
  | pad {p : Pad} (hbody : d.body = .pad p) : Step strict s d (s.addPad ⟨d.date, d.metadata, p⟩)
  /-- An assertion meets no pad. -/
  | pass {b : Assertion} (hbody : d.body = .balance b) (hpad : s.padFor? b = none) :
      Step strict s d s
  /-- An assertion uses a pad, but nothing is missing. -/
  | cover {b : Assertion} {pad : Active} {difference tolerance : Decimal}
      (hbody : d.body = .balance b) (hpad : s.padFor? b = some pad)
      (hdifference : (b.amount.number.sub (s.held b)).Gives strict difference)
      (htolerance : b.effectiveTolerance.Gives strict tolerance)
      (hle : difference.abs ≤ tolerance) : Step strict s d (s.use b pad)
  /-- An assertion uses a pad, and what is missing is transferred. -/
  | fill {b : Assertion} {pad : Active} {difference tolerance : Decimal} {t : Directive}
      {h : Holdings} (hbody : d.body = .balance b) (hpad : s.padFor? b = some pad)
      (hdifference : (b.amount.number.sub (s.held b)).Gives strict difference)
      (htolerance : b.effectiveTolerance.Gives strict tolerance)
      (hgt : ¬difference.abs ≤ tolerance)
      (ht : t = pad.entry.transaction b.amount ⟨difference, b.amount.currency⟩)
      (hh : (s.holdings.addPostings t.postings).Gives strict h) :
      Step strict s d { s.use b pad with holdings := h, transactions := s.transactions ++ [t] }

theorem addAssertion_step {b : Assertion} (hbody : d.body = .balance b)
    (h : (s.addAssertion b).Gives strict s') : s.Step strict d s' := by
  unfold State.addAssertion at h
  split at h
  · rename_i hpad
    obtain rfl := Checked.exact_gives.1 h
    exact .pass hbody hpad
  · rename_i pad hpad
    obtain ⟨difference, hdifference, h⟩ := Checked.bind_gives.1 h
    obtain ⟨tolerance, htolerance, h⟩ := Checked.bind_gives.1 h
    have hheld : (s.use b pad).held b = s.held b := rfl
    rw [hheld] at hdifference
    split at h
    · rename_i hle
      obtain rfl := Checked.exact_gives.1 h
      exact .cover hbody hpad hdifference htolerance hle
    · rename_i hgt
      obtain ⟨h₁, hadd₁, h⟩ := Checked.bind_gives.1 h
      obtain ⟨h₂, hadd₂, h⟩ := Checked.bind_gives.1 h
      obtain rfl := Checked.exact_gives.1 h
      refine .fill hbody hpad hdifference htolerance hgt rfl ?_
      rw [DatedPad.postings_transaction]
      exact Checked.bind_gives.2
        ⟨h₁, hadd₁, Checked.bind_gives.2 ⟨h₂, hadd₂, Checked.exact_gives.2 rfl⟩⟩

theorem step_of_gives (h : (s.step d).Gives strict s') : s.Step strict d s' := by
  unfold State.step at h
  split at h
  · rename_i t hbody
    obtain ⟨h', hh, h⟩ := Checked.bind_gives.1 h
    obtain rfl := Checked.exact_gives.1 h
    refine .post (by simp [hbody]) (by simp [hbody]) ?_
    rwa [Directive.postings_of_transaction hbody]
  · rename_i p hbody
    obtain rfl := Checked.exact_gives.1 h
    exact .pad hbody
  · rename_i b hbody
    exact addAssertion_step hbody h
  · rename_i htransaction hpad hbalance
    obtain rfl := Checked.exact_gives.1 h
    refine .post hpad hbalance ?_
    simp [Directive.postings_eq_nil htransaction]

/-- A step adds padding transactions after those before, and moves what they and the directive
move. -/
theorem State.Step.moves (h : s.Step strict d s') :
    ∃ made, s'.transactions = s.transactions ++ made ∧
      (s.holdings.addPostings (d.postings ++ made.flatMap Directive.postings)).Gives strict
        s'.holdings := by
  cases h with
  | post _ _ hh => exact ⟨[], by simp, by simpa using hh⟩
  | pad hbody =>
    exact ⟨[], by simp [State.addPad], by simp [State.addPad, Directive.postings_eq_nil, hbody]⟩
  | pass hbody => exact ⟨[], by simp, by simp [Directive.postings_eq_nil, hbody]⟩
  | cover hbody =>
    exact ⟨[], by simp [State.use], by simp [State.use, Directive.postings_eq_nil, hbody]⟩
  | @fill _ _ _ _ t _ hbody _ _ _ _ _ hh =>
    exact ⟨[t], rfl, by simpa [Directive.postings_eq_nil, hbody] using hh⟩

/-- A step makes at most one transaction, for the difference of an assertion to what its account
itself holds. -/
theorem State.Step.transactions (h : s.Step strict d s') :
    s'.transactions = s.transactions ∨
      ∃ b pad difference, d.body = .balance b ∧ s.padFor? b = some pad ∧
        (b.amount.number.sub (s.held b)).Gives strict difference ∧
        s'.transactions = s.transactions ++
          [pad.entry.transaction b.amount ⟨difference, b.amount.currency⟩] := by
  cases h with
  | @fill b pad difference _ t _ hbody hpad hdifference _ _ ht _ =>
    exact .inr ⟨b, pad, difference, hbody, hpad, hdifference, by rw [ht]⟩
  | _ => exact .inl rfl

theorem transactions_of_padFor? {b : Assertion} {pad : Active} (hbody : d.body = .balance b)
    (hpad : s.padFor? b = some pad) (h : (s.step d).Gives strict s') :
    s'.transactions = s.transactions ∨
      ∃ difference, (b.amount.number.sub (s.held b)).Gives strict difference ∧
        s'.transactions = s.transactions ++
          [pad.entry.transaction b.amount ⟨difference, b.amount.currency⟩] := by
  rcases (step_of_gives h).transactions with
    hnone | ⟨b', pad', difference, hbody', hpad', hdifference, hone⟩
  · exact .inl hnone
  · obtain rfl := Directive.Body.balance.inj (hbody.symm.trans hbody')
    obtain rfl := Option.some.inj (hpad.symm.trans hpad')
    exact .inr ⟨difference, hdifference, hone⟩

/-! ## Runs -/

theorem run_append {l : List Directive} (hseen : (run seen).Gives strict s)
    (hl : (l.foldlM State.step s).Gives strict s') : (run (seen ++ l)).Gives strict s' := by
  rw [run, List.foldlM_append]
  exact Checked.bind_gives.2 ⟨s, hseen, hl⟩

theorem transactions_prefix {l : List Directive} (h : (l.foldlM State.step s).Gives strict s') :
    s.transactions <+: s'.transactions := by
  refine Checked.foldlM_invariant (fun _ (s' : State) => s.transactions <+: s'.transactions)
    (List.prefix_refl _) ?_ h
  intro _ s₁ d s₂ hs hstep
  obtain ⟨made, hmade, -⟩ := (step_of_gives hstep).moves
  exact hs.trans ⟨made, hmade.symm⟩

/-- The accounts hold what the directives gone through and the padding transactions have moved. -/
theorem movedBy_run (h : (run seen).Gives strict s) :
    s.holdings.MovedBy strict (seen ++ s.transactions) := by
  refine Checked.foldlM_invariant
    (fun seen (s : State) => s.holdings.MovedBy strict (seen ++ s.transactions))
    ⟨[], .nil, by simp⟩ ?_ h
  rintro seen s d s' ⟨moved, hperm, hh⟩ hstep
  obtain ⟨made, htransactions, hh'⟩ := (step_of_gives hstep).moves
  refine ⟨moved ++ d :: made, (hperm.append_right _).trans ?_, ?_⟩
  · simpa [htransactions] using List.perm_middle.append_left seen
  · rw [List.flatMap_append, List.flatMap_cons, Holdings.addPostings_append]
    exact Checked.bind_gives.2 ⟨s.holdings, hh, hh'⟩

/-- What the account of an assertion holds, if no operation has rounded. -/
theorem value_held (h : run seen = .exact s) (b : Assertion) :
    (s.held b).value = posted ((seen ++ s.transactions).flatMap Directive.postings) (· == b.account)
      b.amount.currency := by
  rw [State.held, ← Holdings.total_singleton, (movedBy_run (Checked.gives_true.2 h)).total]

/-- A padding transaction was made at an assertion, for the pad that it meets. -/
theorem exists_assertion_of_transactions {l made rest : List Directive} {t : Directive}
    (h : (l.foldlM State.step s).Gives strict s')
    (ht : s'.transactions = s.transactions ++ made ++ t :: rest) :
    ∃ before d after s₁ s₂ b pad difference, l = before ++ d :: after ∧
      (before.foldlM State.step s).Gives strict s₁ ∧ (s₁.step d).Gives strict s₂ ∧
      s₁.transactions = s.transactions ++ made ∧ s₂.transactions = s.transactions ++ made ++ [t] ∧
      d.body = .balance b ∧ s₁.padFor? b = some pad ∧
      t = pad.entry.transaction b.amount ⟨difference, b.amount.currency⟩ := by
  induction l generalizing s made with
  | nil =>
    obtain rfl := Checked.exact_gives.1 h
    simp at ht
  | cons d l ih =>
    obtain ⟨s₁, hd, hl⟩ := Checked.bind_gives.1 h
    rcases (step_of_gives hd).transactions with hnone | ⟨b, pad, difference, hbody, hpad, -, hone⟩
    · rw [← hnone] at ht ⊢
      obtain ⟨before, d', after, s₂, s₃, b, pad, difference, rfl, hbefore, hrest⟩ := ih hl ht
      exact ⟨d :: before, d', after, s₂, s₃, b, pad, difference, rfl,
        Checked.bind_gives.2 ⟨s₁, hd, hbefore⟩, hrest⟩
    · obtain ⟨later, hlater⟩ := transactions_prefix hl
      rw [← hlater, hone] at ht
      cases made with
      | nil =>
        -- The first transaction that is made is the one in question.
        obtain ⟨rfl, -⟩ : pad.entry.transaction b.amount ⟨difference, b.amount.currency⟩ = t ∧
            later = rest := by simpa using ht
        exact ⟨[], d, l, s, s₁, b, pad, difference, rfl, Checked.exact_gives.2 rfl, hd, by simp,
          by simpa using hone, hbody, hpad, rfl⟩
      | cons t' made =>
        obtain ⟨rfl, rfl⟩ : pad.entry.transaction b.amount ⟨difference, b.amount.currency⟩ = t' ∧
            later = made ++ t :: rest := by simpa using ht
        obtain ⟨before, d', after, s₂, s₃, b', pad', difference', rfl, hbefore, hrest⟩ :=
          ih hl (show s'.transactions = s₁.transactions ++ made ++ t :: rest by
            rw [← hlater, List.append_assoc])
        refine ⟨d :: before, d', after, s₂, s₃, b', pad', difference', rfl,
          Checked.bind_gives.2 ⟨s₁, hd, hbefore⟩, ?_⟩
        simpa [hone] using hrest

/-! ## The pad that applies -/

/-- The pad after an assertion on its account, which uses it unless its currency has been used. -/
def Active.after (pad : Active) (b : Assertion) : Active :=
  if b.amount.currency ∈ pad.used then pad
  else { pad with used := pad.used ++ [b.amount.currency] }

/-- What a directive makes of the pad that applies to an account. Only pads of the account and
assertions on it matter. -/
def nextActive (account : Account) (active : Option Active) (d : Directive) : Option Active :=
  match d.body with
  | .pad p => if p.account = account then some ⟨⟨d.date, d.metadata, p⟩, []⟩ else active
  | .balance b => if b.account = account then active.map (·.after b) else active
  | _ => active

theorem padFor?_eq_some {b : Assertion} {pad : Active} :
    s.padFor? b = some pad ↔ s.active[b.account]? = some pad ∧ b.amount.currency ∉ pad.used := by
  simp [State.padFor?]

theorem nextActive_of_balance {b : Assertion} (hbody : d.body = .balance b) (account : Account)
    (active : Option Active) :
    nextActive account active d =
      if b.account = account then active.map (·.after b) else active := by
  simp [nextActive, hbody]

theorem active_use {b : Assertion} {pad : Active} (hpad : s.padFor? b = some pad)
    (account : Account) :
    (s.use b pad).active[account]? =
      if b.account = account then s.active[account]?.map (·.after b) else s.active[account]? := by
  obtain ⟨hactive, hfresh⟩ := padFor?_eq_some.1 hpad
  rw [State.use, Std.TreeMap.getElem?_insert]
  by_cases haccount : b.account = account
  · subst haccount
    simp [hactive, Active.after, hfresh]
  · simp [haccount]

theorem State.Step.active (h : s.Step strict d s') (account : Account) :
    s'.active[account]? = nextActive account s.active[account]? d := by
  cases h with
  | post hpad hbalance hh =>
    unfold nextActive
    split
    · rename_i p hbody
      exact absurd hbody (hpad p)
    · rename_i b hbody
      exact absurd hbody (hbalance b)
    · rfl
  | pad hbody => simp [nextActive, hbody, State.addPad, Std.TreeMap.getElem?_insert]
  | @pass b hbody hpad =>
    rw [nextActive_of_balance hbody]
    split
    · rename_i haccount
      subst haccount
      -- No pad applies, or one that the currency has used.
      cases hactive : s.active[b.account]? with
      | none => rfl
      | some pad =>
        have hused : b.amount.currency ∈ pad.used := by simpa [State.padFor?, hactive] using hpad
        simp [Active.after, hused]
    · rfl
  | cover hbody hpad => rw [nextActive_of_balance hbody, active_use hpad]
  | fill hbody hpad => rw [nextActive_of_balance hbody, ← active_use hpad]

/-- The pad that applies to an account does not depend on what the accounts hold. -/
theorem active_foldlM {l : List Directive} (h : (l.foldlM State.step s).Gives strict s')
    (account : Account) :
    s'.active[account]? = l.foldl (nextActive account) s.active[account]? := by
  refine Checked.foldlM_invariant
    (fun l (s' : State) => s'.active[account]? = l.foldl (nextActive account) s.active[account]?)
    rfl ?_ h
  intro seen s₁ d s₂ hs hstep
  rw [(step_of_gives hstep).active, hs, List.foldl_append]
  rfl

theorem nextActive_eq_some {account : Account} {active : Option Active} {pad : Active}
    (h : nextActive account active d = some pad) :
    pad.entry.directive = d ∧ pad.entry.pad.account = account ∨
      ∃ before, active = some before ∧ before.entry = pad.entry ∧ before.used ⊆ pad.used := by
  unfold nextActive at h
  split at h
  · rename_i p hbody
    split at h
    · rename_i haccount
      obtain rfl := Option.some.inj h
      exact .inl ⟨by rw [DatedPad.directive, ← hbody], haccount⟩
    · exact .inr ⟨pad, h, rfl, fun _ => id⟩
  · rename_i b hbody
    split at h
    · obtain ⟨before, hbefore, rfl⟩ := Option.map_eq_some_iff.1 h
      refine .inr ⟨before, hbefore, ?_⟩
      unfold Active.after
      split <;> simp
    · exact .inr ⟨pad, h, rfl, fun _ => id⟩
  · exact .inr ⟨pad, h, rfl, fun _ => id⟩

/-- A pad that applies after some directives is one of them, or applied before. -/
theorem foldl_nextActive {account : Account} {active : Option Active} {l : List Directive}
    {pad : Active} (h : l.foldl (nextActive account) active = some pad) :
    pad.entry.directive ∈ l ∧ pad.entry.pad.account = account ∨
      ∃ before, active = some before ∧ before.entry = pad.entry ∧ before.used ⊆ pad.used := by
  induction l generalizing active with
  | nil => exact .inr ⟨pad, h, rfl, fun _ => id⟩
  | cons d l ih =>
    rcases ih h with ⟨hmem, haccount⟩ | ⟨pad₁, hpad₁, hentry, hused⟩
    · exact .inl ⟨List.mem_cons_of_mem d hmem, haccount⟩
    · rcases nextActive_eq_some hpad₁ with ⟨rfl, haccount⟩ | ⟨before, hbefore, hentry', hused'⟩
      · exact .inl ⟨by simp [hentry], by rw [← hentry, haccount]⟩
      · exact .inr ⟨before, hbefore, hentry'.trans hentry, List.Subset.trans hused' hused⟩

/-- The pad that an assertion meets is one of the directives gone through. -/
theorem mem_of_padFor? (h : (run seen).Gives strict s) {b : Assertion} {pad : Active}
    (hpad : s.padFor? b = some pad) :
    pad.entry.directive ∈ seen ∧ pad.entry.pad.account = b.account := by
  have hactive := (padFor?_eq_some.1 hpad).1
  rw [active_foldlM h] at hactive
  rcases foldl_nextActive hactive with hmem | ⟨before, hbefore, -⟩
  · exact hmem
  · simp at hbefore

/-- Every padding transaction comes from a pad that was gone through. -/
theorem exists_pad_of_mem_transactions (h : (run seen).Gives strict s) {t : Directive}
    (ht : t ∈ s.transactions) :
    ∃ (pad : DatedPad) (asserted difference : Amount), pad.directive ∈ seen ∧
      t = pad.transaction asserted difference := by
  obtain ⟨made, rest, hmade⟩ := List.append_of_mem ht
  obtain ⟨before, d, after, s₁, s₂, b, pad, difference, rfl, hbefore, -, -, -, -, hpad, ht⟩ :=
    exists_assertion_of_transactions h hmade
  have hmem := (mem_of_padFor? hbefore hpad).1
  exact ⟨pad.entry, b.amount, _, List.mem_append_left _ hmem, ht⟩

end Padding

/-! ## Ledgers -/

theorem padding_gives {strict : Bool} {l transactions : List Directive} {unused : List DatedPad}
    (h : (padding l).Gives strict (transactions, unused)) :
    ∃ s, (Padding.run (Directive.sort l)).Gives strict s ∧ s.transactions = transactions := by
  obtain ⟨s, hs, h⟩ := Checked.bind_gives.1 h
  exact ⟨s, hs, congrArg Prod.fst (Checked.exact_gives.1 h)⟩

theorem mergePadding_gives {strict : Bool} {l merged : List Directive} {unused : List DatedPad}
    (h : (mergePadding l).Gives strict (merged, unused)) :
    ∃ s, (Padding.run (Directive.sort l)).Gives strict s ∧
      merged = if s.transactions.isEmpty then l else Directive.sort (l ++ s.transactions) := by
  obtain ⟨⟨transactions, unused'⟩, hpadding, h⟩ := Checked.bind_gives.1 h
  obtain ⟨s, hs, rfl⟩ := padding_gives hpadding
  refine ⟨s, hs, ?_⟩
  simp only at h
  split at h
  · rename_i hempty
    obtain ⟨rfl, -⟩ := Prod.mk.inj (Checked.exact_gives.1 h)
    rw [if_pos hempty]
  · rename_i hempty
    obtain ⟨rfl, -⟩ := Prod.mk.inj (Checked.exact_gives.1 h)
    rw [if_neg hempty]

end DoubleEntry
