import DoubleEntry.Proofs.Ends
import DoubleEntry.Proofs.Holdings
import DoubleEntry.Report.Balances

/-!
# What each account is left with by its own postings

Realizing entries goes through the postings of all accounts at once, but what it leaves in an
account comes from the postings of that account alone, in their order, and it fails only if one
account does.

* `Inventory.ofPostings`: what the postings of an account leave in it.
* `Holdings.realized_gives`: what realizing leaves in each account.
* `Holdings.exists_realized_iff`: when it has a result.
-/

namespace DoubleEntry

namespace Inventory

/-- Adds what a posting adds to its account. -/
def take (inv : Inventory) (p : Posting) : Checked Inventory := do
  match ← p.held? with
  | some held => inv.add held
  | none => return inv

/-- What the postings of an account among some postings leave in it. -/
def ofPostings (account : Account) (ps : List Posting) : Checked Inventory :=
  (ps.filter (·.account = account)).foldlM take {}

end Inventory

namespace Holdings

variable {strict : Bool} {g h k : Holdings} {p : Posting} {ps qs : List Posting}

/-- Every account has gone from what it holds in `g` to what it holds in `h` by its own postings. -/
def Accumulates (strict : Bool) (g : Holdings) (ps : List Posting) (h : Holdings) : Prop :=
  ∀ account, ((ps.filter (·.account = account)).foldlM Inventory.take (g.inventory account)).Gives
    strict (h.inventory account)

/-- Every account can go on from what it holds by its own postings. -/
def CanTake (g : Holdings) (ps : List Posting) : Prop :=
  ∀ account, ∃ inv, ((ps.filter (·.account = account)).foldlM Inventory.take
    (g.inventory account)).value? = some inv

namespace Accumulates

theorem of_inventory_eq (heq : ∀ account, h.inventory account = g.inventory account) :
    Accumulates strict g [] h := by
  intro account
  rw [heq]
  exact Checked.exact_gives.2 rfl

/-- Postings are accumulated in two goes as in one. -/
theorem append (hg : Accumulates strict g ps h) (hh : Accumulates strict h qs k) :
    Accumulates strict g (ps ++ qs) k := by
  intro account
  rw [List.filter_append, List.foldlM_append]
  exact Checked.bind_gives.2 ⟨_, hg account, hh account⟩

/-- What is left to take after some postings can be taken. -/
theorem canTake (hg : Accumulates strict g ps h) (hcan : g.CanTake (ps ++ qs)) : h.CanTake qs := by
  intro account
  obtain ⟨inv, hinv⟩ := hcan account
  rw [List.filter_append, List.foldlM_append, Checked.value?_bind, (hg account).value?] at hinv
  exact ⟨inv, hinv⟩

end Accumulates

/-! ## Postings -/

/-- A posting goes to its own account, and to no other. -/
theorem accumulates_hold (hh : (g.hold p).Gives strict h) : Accumulates strict g [p] h := by
  intro account
  obtain ⟨held, hheld, hh⟩ := Checked.bind_gives.1 hh
  by_cases haccount : p.account = account
  · subst haccount
    rw [List.filter_cons_of_pos (by simp), List.filter_nil, List.foldlM_cons]
    refine Checked.bind_gives.2
      ⟨_, Checked.bind_gives.2 ⟨held, hheld, ?_⟩, Checked.exact_gives.2 rfl⟩
    cases held with
    | none =>
      obtain rfl := Checked.exact_gives.1 hh
      exact Checked.exact_gives.2 rfl
    | some a =>
      obtain ⟨inv, hinv, hh⟩ := Checked.bind_gives.1 hh
      obtain rfl := Checked.exact_gives.1 hh
      rwa [inventory_insert, if_pos rfl]
  · rw [List.filter_cons_of_neg (by simpa using haccount), List.filter_nil]
    refine Checked.exact_gives.2 ?_
    cases held with
    | none => rw [Checked.exact_gives.1 hh]
    | some a =>
      obtain ⟨inv, -, hh⟩ := Checked.bind_gives.1 hh
      obtain rfl := Checked.exact_gives.1 hh
      rw [inventory_insert, if_neg haccount]

theorem accumulates_holdAll (hh : (ps.foldlM hold g).Gives strict h) :
    Accumulates strict g ps h :=
  Checked.foldlM_invariant (Accumulates strict g) (.of_inventory_eq fun _ => rfl)
    (fun _ _ _ _ hseen hp => hseen.append (accumulates_hold hp)) hh

/-- If every account can take its postings, the first one can be taken in, and the others after it.
-/
theorem CanTake.hold (hcan : g.CanTake (p :: ps)) :
    ∃ h, (g.hold p).value? = some h ∧ h.CanTake ps := by
  suffices hhold : ∃ h, (g.hold p).value? = some h by
    obtain ⟨h, hh⟩ := hhold
    exact ⟨h, hh, (accumulates_hold (Checked.gives_false.2 hh)).canTake hcan⟩
  obtain ⟨inv, hinv⟩ := hcan p.account
  rw [List.filter_cons_of_pos (by simp), List.foldlM_cons, Checked.value?_bind] at hinv
  obtain ⟨inv₁, htake, -⟩ := Option.bind_eq_some_iff.1 hinv
  rw [Inventory.take, Checked.value?_bind] at htake
  obtain ⟨held, hheld, htake⟩ := Option.bind_eq_some_iff.1 htake
  rw [Holdings.hold, Checked.value?_bind, hheld, Option.bind_some]
  cases held with
  | none => exact ⟨g, rfl⟩
  | some a => exact ⟨g.insert p.account inv₁, by simp [add, show _ = some inv₁ from htake]⟩

/-- So can the first ones. -/
theorem CanTake.holdAll (hcan : g.CanTake (ps ++ qs)) :
    ∃ h, (ps.foldlM Holdings.hold g).value? = some h ∧ h.CanTake qs := by
  induction ps generalizing g with
  | nil => exact ⟨g, rfl, hcan⟩
  | cons p ps ih =>
    obtain ⟨h, hh, hcan⟩ := hcan.hold
    obtain ⟨k, hk, hcan⟩ := ih hcan
    rw [List.foldlM_cons, Checked.value?_bind, hh]
    exact ⟨k, hk, hcan⟩

/-! ## Entries -/

theorem inventory_mention (h : Holdings) (account a : Account) :
    (h.mention account).inventory a = h.inventory a := by
  rw [mention, inventory_insert]
  split
  · next heq => rw [heq]
  · rfl

theorem inventory_foldl_mention (h : Holdings) (accounts : List Account) (a : Account) :
    (accounts.foldl mention h).inventory a = h.inventory a := by
  induction accounts generalizing h with
  | nil => rfl
  | cons account accounts ih => rw [List.foldl_cons, ih, inventory_mention]

variable {d : Directive} {entries : List Directive}

/-- An entry accumulates its postings; what it opens holds nothing. -/
theorem accumulates_realize (hh : (g.realize d).Gives strict h) :
    Accumulates strict g d.postings h := by
  unfold realize at hh
  split at hh
  · next hbody =>
    obtain rfl := Checked.exact_gives.1 hh
    rw [Directive.postings_eq_nil (by simp [hbody])]
    exact .of_inventory_eq (g.inventory_mention _)
  · next hbody =>
    rw [Directive.postings_of_transaction hbody]
    exact accumulates_holdAll hh
  · next htransaction =>
    obtain rfl := Checked.exact_gives.1 hh
    rw [Directive.postings_eq_nil htransaction]
    exact .of_inventory_eq fun _ => rfl

/-- An entry can be taken in if its postings can. -/
theorem CanTake.realize (hcan : g.CanTake (d.postings ++ qs)) :
    ∃ h, (g.realize d).value? = some h ∧ h.CanTake qs := by
  suffices hrealize : ∃ h, (g.realize d).value? = some h by
    obtain ⟨h, hh⟩ := hrealize
    exact ⟨h, hh, (accumulates_realize (Checked.gives_false.2 hh)).canTake hcan⟩
  unfold Holdings.realize
  split
  · exact ⟨_, rfl⟩
  · next hbody =>
    rw [Directive.postings_of_transaction hbody] at hcan
    obtain ⟨h, hh, -⟩ := hcan.holdAll
    exact ⟨h, hh⟩
  · exact ⟨_, rfl⟩

/-- Realizing leaves in each account what its own postings leave in it. -/
theorem realized_gives (hh : (realized entries).Gives strict h) (account : Account) :
    (Inventory.ofPostings account (entries.flatMap Directive.postings)).Gives strict
      (h.inventory account) := by
  obtain ⟨g, hg, hh⟩ := Checked.bind_gives.1 hh
  obtain rfl := Checked.exact_gives.1 hh
  rw [inventory_foldl_mention]
  have hall : Accumulates strict {} (entries.flatMap Directive.postings) g := by
    refine Checked.foldlM_invariant
      (fun seen g => Accumulates strict {} (seen.flatMap Directive.postings) g)
      (.of_inventory_eq fun _ => rfl) (fun seen g d g' hseen hd => ?_) hg
    rw [List.flatMap_append, List.flatMap_singleton]
    exact hseen.append (accumulates_realize hd)
  exact hall account

/-- Realizing has a result if the own postings of each account can be added up. -/
theorem exists_realized_iff (entries : List Directive) :
    (∃ h, (realized entries).value? = some h) ↔ ∀ account, ∃ inv,
      (Inventory.ofPostings account (entries.flatMap Directive.postings)).value? = some inv := by
  constructor
  · rintro ⟨h, hh⟩ account
    exact ⟨_, (realized_gives (Checked.gives_false.2 hh) account).value?⟩
  · intro hcan
    suffices ∀ g : Holdings, g.CanTake (entries.flatMap Directive.postings) →
        ∃ h, (entries.foldlM realize g).value? = some h by
      obtain ⟨g, hg⟩ := this {} hcan
      rw [realized, Checked.value?_bind, hg]
      exact ⟨_, rfl⟩
    clear hcan
    induction entries with
    | nil => exact fun g _ => ⟨g, rfl⟩
    | cons d entries ih =>
      intro g hcan
      rw [List.flatMap_cons] at hcan
      obtain ⟨h, hh, hcan⟩ := hcan.realize
      rw [List.foldlM_cons, Checked.value?_bind, hh]
      exact ih h hcan

end Holdings

end DoubleEntry
