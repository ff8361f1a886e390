import DoubleEntry.Proofs.Journal.Transactions

/-!
# What a block does to what is pushed

A block changes what is pushed by one key, or not at all. If it changes something and still has an
error, it is a `pushtag`, a `poptag` or a `popmeta` after which something else stands on the line.

* `Step.Of`: all that a step can do; `Block.step_of`: a step does one of these things.
* `Block.run`: what some blocks say, and what is pushed after them.
* `Block.value?_items_append`: what blocks say, up to some block and from there on.
* `Block.items_balance`: blocks change what is pushed, or report what they cannot change, by the
  same whatever was pushed before them.
-/

namespace DoubleEntry

/-! ## Changes -/

namespace Pushed

variable {pushed after : Pushed} {l rest : Line}

/-- One key more is open, or one less. -/
def Changes (pushed after : Pushed) : Prop :=
  ∃ key, after.keys.Perm (key :: pushed.keys) ∨ pushed.keys.Perm (key :: after.keys)

theorem Changes.exists_count_ne (h : pushed.Changes after) :
    ∃ key, after.keys.count key ≠ pushed.keys.count key := by
  obtain ⟨key, hperm | hperm⟩ := h
  · refine ⟨key, ?_⟩
    rw [hperm.count_eq, List.count_cons_self]
    omega
  · refine ⟨key, ?_⟩
    rw [hperm.count_eq, List.count_cons_self]
    omega

/-- A push or a pop changes what is pushed. A push of metadata is read to the end of its line. -/
theorem Read.changes {k : Keyword} (h : pushed.Read l k after rest) :
    pushed.Changes after ∧ (k = .pushMeta → rest.finish = pure ()) := by
  cases h with
  | pushTag => exact ⟨⟨_, .inl (pushed.keys_pushTag _ _)⟩, nofun⟩
  | popTag _ hpop => exact ⟨⟨_, .inr (keys_popTag? hpop)⟩, nofun⟩
  | pushMeta _ _ hfinish =>
    refine ⟨⟨_, .inl (pushed.keys_pushMetadata _ _ _)⟩, fun _ => ?_⟩
    obtain heq | heq := rest.finish_eq
    · exact heq
    · exact absurd (heq ▸ hfinish) Checked.throw_ne_ok
  | popMeta _ hpop => exact ⟨⟨_, .inr (keys_popMetadata? hpop)⟩, nofun⟩

end Pushed

/-! ## Steps -/

/-- The keyword with which the block starts, comments apart. -/
def Block.keyword? (b : Block) : Option Keyword :=
  match b.uncommented.head.nextKind? with
  | some (.keyword k) => some k
  | _ => none

theorem Block.keyword?_eq_some {b : Block} {k : Keyword} : b.keyword? = some k ↔
    ∃ t ts, b.uncommented.head.tokens = t :: ts ∧ t.kind = .keyword k := by
  unfold keyword? Line.nextKind?
  cases b.uncommented.head.tokens with
  | nil => simp
  | cons t ts => cases hkind : t.kind <;> simp [hkind]

/-- The keywords that take effect before the end of their line is looked at. -/
def Keyword.takesEffectEarly : List Keyword := [.pushTag, .popTag, .popMeta]

/-- What the step of a block can do. -/
inductive Step.Of (pushed : Pushed) (b : Block) : Step → Prop
  /-- It reports an error and changes nothing. -/
  | fails (e : SyntaxError) : Of pushed b (fail pushed e)
  /-- It says something or nothing, and changes nothing. -/
  | keeps {s : Step} (hpushed : s.pushed = pushed) (hitem : ∀ e, s.item ≠ some (.error e)) :
    Of pushed b s
  /-- It changes what is pushed. -/
  | changes {after : Pushed} (h : pushed.Changes after) : Of pushed b (skip after b.body)
  /-- It changes what is pushed, but something else stands on the line. -/
  | changesAndFails {after : Pushed} (h : pushed.Changes after) (e : SyntaxError)
    (hkeyword : ∃ k ∈ Keyword.takesEffectEarly, b.keyword? = some k) : Of pushed b (fail after e)

namespace Step

variable {pushed : Pushed} {b : Block} {s : Step} {e : SyntaxError}

/-- An error takes the whole block. -/
theorem Of.leftover_eq (h : s.Of pushed b) (he : s.item = some (.error e)) : s.leftover = [] := by
  cases h with
  | fails | changesAndFails => rfl
  | keeps _ hitem => exact absurd he (hitem e)
  | changes => cases he

theorem Of.changes_or (h : s.Of pushed b) (he : s.item = some (.error e)) :
    s.pushed = pushed ∨
      pushed.Changes s.pushed ∧ ∃ k ∈ Keyword.takesEffectEarly, b.keyword? = some k := by
  cases h with
  | fails => exact .inl rfl
  | keeps hpushed _ => exact .inl hpushed
  | changes => cases he
  | changesAndFails h _ hkeyword => exact .inr ⟨h, hkeyword⟩

end Step

namespace Block

variable {pushed : Pushed} {b : Block} {s : Step}

/-- A step does one of these things. -/
theorem step_of (h : (b.step pushed).value? = some s) : s.Of pushed b := by
  obtain ⟨hpushed, ⟨e, rfl⟩ | hitem, -⟩ | ⟨t, ts, k, r, htokens, hkind, hr, h⟩ := step_cases h
  · exact .fails e
  · exact .keeps hpushed hitem
  · obtain ⟨e, rfl⟩ | ⟨after, rest, hread, rfl | ⟨hfinish, e, rfl⟩⟩ := Step.ofPush_cases h
    · exact .fails e
    · exact .changes (Pushed.read_of_read? hr hread).changes.1
    · obtain ⟨hchanges, hend⟩ := (Pushed.read_of_read? hr hread).changes
      refine .changesAndFails hchanges e ⟨k, ?_, keyword?_eq_some.2 ⟨t, ts, htokens, hkind⟩⟩
      cases k with
      | pushTag | popTag | popMeta => decide
      | pushMeta => exact absurd (hend rfl) hfinish
      | _ => cases hr

/-! ## Runs -/

/-- What some blocks say, one after the other, and what is pushed after them. -/
def run (pushed : Pushed) : List Block → Checked (List Item × Pushed)
  | [] => return ([], pushed)
  | b :: blocks => do
    let s ← b.step pushed
    let after ← stray s.leftover
    let (said, pushed) ← run s.pushed blocks
    return (s.item.toList ++ after.toList ++ said, pushed)

/-- Blocks say what those up to some block say, and then what the others say where as much is
pushed. -/
theorem value?_items_append {blocks more : List Block} {items : List Item} :
    (Block.items pushed (blocks ++ more)).value? = some items ↔
      ∃ said after rest, (run pushed blocks).value? = some (said, after) ∧
        (Block.items after more).value? = some rest ∧ said ++ rest = items := by
  induction blocks generalizing pushed items with
  | nil => simp [run]
  | cons b blocks ih =>
    simp only [List.cons_append, Block.items, run, Checked.value?_bind, Option.bind_eq_some_iff,
      Checked.pure_eq, Checked.value?_exact, Option.some.injEq]
    constructor
    · rintro ⟨s, hs, stray, hstray, items, hitems, rfl⟩
      obtain ⟨said, after, rest, hrun, hrest, rfl⟩ := ih.1 hitems
      exact ⟨_, after, rest, ⟨s, hs, stray, hstray, (said, after), hrun, rfl⟩, hrest,
        List.append_assoc _ _ _⟩
    · rintro ⟨said, after, rest, ⟨s, hs, stray, hstray, ⟨said', after'⟩, hrun, hsaid⟩, hrest, rfl⟩
      obtain ⟨rfl, rfl⟩ := Prod.mk.inj hsaid
      exact ⟨s, hs, stray, hstray, said' ++ rest, ih.2 ⟨said', after', rest, hrun, hrest, rfl⟩,
        (List.append_assoc _ _ _).symm⟩

/-- A block with an error says nothing else. -/
theorem value?_items_cons {e : SyntaxError} {blocks : List Block} {items : List Item}
    (hs : (b.step pushed).value? = some s) (he : s.item = some (.error e)) :
    (Block.items pushed (b :: blocks)).value? = some items ↔
      ∃ rest, (Block.items s.pushed blocks).value? = some rest ∧ .error e :: rest = items := by
  have hleftover : s.leftover = [] := (step_of hs).leftover_eq he
  simp [Block.items, hs, he, hleftover, stray, Option.bind_eq_some_iff]

/-- Where something is pushed, a step changes or reports what it does alone. -/
theorem step_balance {pushed' : Pushed} {s' : Step} (h : (b.step pushed).value? = some s)
    (h' : (b.step pushed').value? = some s') (key : PushKey) :
    s.balance key - pushed.keys.count key = s'.balance key - pushed'.keys.count key := by
  obtain ⟨alone, halone⟩ := Checked.exists_value?_iff.2
    ((step_completed pushed b).ne_error_iff.2 (Checked.exists_value?_iff.1 ⟨s, h⟩))
  have hbalance {pushed : Pushed} {s : Step} (h : (b.step pushed).value? = some s) :
      s.balance key = pushed.keys.count key + alone.balance key := by
    obtain ⟨t, ht, hcompleted⟩ := (step_completed pushed b).value? halone
    obtain rfl : t = s := Option.some.inj (ht.symm.trans h)
    exact hcompleted.balance key
  rw [hbalance h, hbalance h']
  omega

/-- Blocks report what is open at their end and what they cannot pop: by how much that differs from
what was open before does not depend on it. -/
theorem items_balance {pushed' : Pushed} {blocks : List Block} {items items' : List Item}
    (h : (Block.items pushed blocks).value? = some items)
    (h' : (Block.items pushed' blocks).value? = some items') (key : PushKey) :
    Item.balance key items - pushed.keys.count key =
      Item.balance key items' - pushed'.keys.count key := by
  induction blocks generalizing pushed pushed' items items' with
  | nil =>
    obtain rfl := Option.some.inj h
    obtain rfl := Option.some.inj h'
    rw [Item.balance_unclosed, Item.balance_unclosed]
    omega
  | cons b blocks ih =>
    simp only [Block.items, Checked.value?_bind, Option.bind_eq_some_iff] at h h'
    obtain ⟨s, hs, after, hafter, rest, hrest, hitems⟩ := h
    obtain ⟨s', hs', after', hafter', rest', hrest', hitems'⟩ := h'
    obtain rfl := Option.some.inj hitems
    obtain rfl := Option.some.inj hitems'
    have hstray {leftover : List Line} {o : Option Item}
        (ho : (stray leftover).value? = some o) : Item.balance key o.toList = 0 := by
      obtain ⟨o', ho', -, hbalance⟩ := stray_eq leftover
      obtain rfl : o' = o := by simpa [ho'] using ho
      exact hbalance key
    have hstep := step_balance hs hs' key
    have hblocks := ih hrest hrest'
    simp only [Step.balance] at hstep
    simp only [Item.balance_append, hstray hafter, hstray hafter']
    omega

end Block

end DoubleEntry
