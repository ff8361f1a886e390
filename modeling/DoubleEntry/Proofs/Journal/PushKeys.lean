import DoubleEntry.Journal.Basic
import Mathlib.Data.List.Count
import Mathlib.Data.List.Perm.Basic

/-!
# What is pushed, counted

Every push is popped, or an error tells that it is still open at the end; every pop ends a push, or
an error tells that there is none. So the errors of a text tell how many more pushes than pops of a
key it has.

* `Pushed.keys`: what is open.
* `Item.balance`: the open pushes of a key that errors report, less the pops without a push.
* `Item.balance_unclosed`: at the end of a text all that is open is reported.
-/

namespace DoubleEntry

namespace Pushed

variable {pushed popped : Pushed}

/-- What is open: tags, then metadata. -/
def keys (pushed : Pushed) : List PushKey :=
  pushed.tags.map (fun e => .tag e.1) ++ pushed.metadata.map fun e => .metadata e.1

/-- A push adds its key to those that are open. -/
theorem keys_pushTag (pushed : Pushed) (tag : String) (span : Span) :
    (pushed.pushTag tag span).keys.Perm (.tag tag :: pushed.keys) := by
  simp only [keys, pushTag, List.map_append, List.map_cons, List.map_nil, List.append_assoc,
    List.singleton_append]
  exact List.perm_middle

theorem keys_pushMetadata (pushed : Pushed) (key : String) (value : MetaValue) (span : Span) :
    (pushed.pushMetadata key value span).keys.Perm (.metadata key :: pushed.keys) := by
  simp only [keys, pushMetadata, List.map_append, List.map_cons, List.map_nil,
    ← List.append_assoc]
  exact List.perm_append_singleton _ _

/-- Nothing is erased only where nothing was to be found. -/
theorem forall_not_of_eraseLast? {α : Type} {p : α → Bool} {as : List α}
    (h : eraseLast? p as = none) : ∀ a ∈ as, ¬p a := by
  induction as with
  | nil => simp
  | cons b as ih =>
    rw [eraseLast?] at h
    split at h
    · cases h
    · rename_i hnone
      split at h
      · cases h
      · next hb => exact List.forall_mem_cons.2 ⟨hb, ih hnone⟩

/-- One element is taken out of the list, the last with the property. -/
theorem split_of_eraseLast? {α : Type} {p : α → Bool} {as rest : List α}
    (h : eraseLast? p as = some rest) : ∃ before a after,
      as = before ++ a :: after ∧ rest = before ++ after ∧ p a ∧ ∀ b ∈ after, ¬p b := by
  induction as generalizing rest with
  | nil => cases h
  | cons b as ih =>
    rw [eraseLast?] at h
    split at h
    · rename_i rest' hrest
      obtain rfl := Option.some.inj h
      obtain ⟨before, a, after, rfl, rfl, ha, hafter⟩ := ih hrest
      exact ⟨b :: before, a, after, rfl, rfl, ha, hafter⟩
    · rename_i hnone
      split at h
      · rename_i hb
        obtain rfl := Option.some.inj h
        exact ⟨[], b, as, rfl, rfl, hb, forall_not_of_eraseLast? hnone⟩
      · cases h

/-- What is left and what was erased are all there was. -/
theorem perm_of_eraseLast? {α : Type} {p : α → Bool} {as rest : List α}
    (h : eraseLast? p as = some rest) : ∃ a, p a ∧ as.Perm (a :: rest) := by
  obtain ⟨before, a, after, rfl, rfl, ha, -⟩ := split_of_eraseLast? h
  exact ⟨a, ha, List.perm_middle⟩

theorem subset_of_eraseLast? {α : Type} {p : α → Bool} {as rest : List α}
    (h : eraseLast? p as = some rest) : rest ⊆ as := by
  obtain ⟨a, -, hperm⟩ := perm_of_eraseLast? h
  exact fun b hb => hperm.mem_iff.2 (List.mem_cons_of_mem a hb)

/-- A pop takes away one key: the tag that it names. -/
theorem keys_popTag? {tag : String} (h : pushed.popTag? tag = some popped) :
    pushed.keys.Perm (.tag tag :: popped.keys) := by
  obtain ⟨rest, hrest, hpopped⟩ := Option.bind_eq_some_iff.1 h
  obtain rfl := Option.some.inj hpopped
  obtain ⟨e, he, hperm⟩ := perm_of_eraseLast? hrest
  obtain rfl := of_decide_eq_true he
  exact (hperm.map _).append_right _

/-- A pop takes away one key: the one that it names. -/
theorem keys_popMetadata? {key : String} (h : pushed.popMetadata? key = some popped) :
    pushed.keys.Perm (.metadata key :: popped.keys) := by
  obtain ⟨rest, hrest, hpopped⟩ := Option.bind_eq_some_iff.1 h
  obtain rfl := Option.some.inj hpopped
  obtain ⟨e, he, hperm⟩ := perm_of_eraseLast? hrest
  obtain rfl := of_decide_eq_true he
  exact ((hperm.map _).append_left _).trans List.perm_middle

end Pushed

/-! ## Balances -/

/-- The open pushes of a key among the causes of errors, less the pops without a push. -/
def SyntaxError.balance (key : PushKey) (causes : List Cause) : Int :=
  causes.count (.unclosedPush key) - causes.count (.unbalancedPop key)

/-- Balances of errors add up. -/
theorem SyntaxError.balance_append (key : PushKey) (causes more : List Cause) :
    balance key (causes ++ more) = balance key causes + balance key more := by
  simp only [balance, List.count_append, Int.natCast_add]
  omega

/-- What is wrong with the errors among some items. -/
def Item.causes (items : List Item) : List SyntaxError.Cause :=
  (Journal.errors ⟨items⟩).map (·.cause)

@[simp] theorem Item.causes_append (items more : List Item) :
    causes (items ++ more) = causes items ++ causes more := by
  simp only [causes, Journal.errors, List.filterMap_append, List.map_append]

@[simp] theorem Item.causes_errors (errors : List SyntaxError) :
    causes (errors.map .error) = errors.map (·.cause) := by
  simp [causes, Journal.errors, List.filterMap_map]

namespace Item

variable (key : PushKey)

/-- The open pushes of a key that the errors among some items report, less the pops without a
push. -/
def balance (items : List Item) : Int := SyntaxError.balance key (causes items)

@[simp] theorem balance_nil : balance key [] = 0 := rfl

@[simp] theorem balance_append (items more : List Item) :
    balance key (items ++ more) = balance key items + balance key more := by
  rw [balance, causes_append, SyntaxError.balance_append]
  rfl

/-- At the end, all that is open is reported. -/
theorem balance_unclosed (pushed : Pushed) :
    balance key (pushed.unclosed.map .error) = pushed.keys.count key := by
  have hcauses : causes (pushed.unclosed.map .error) = pushed.keys.map .unclosedPush := by
    rw [causes_errors]
    simp [Pushed.unclosed, Pushed.keys, Function.comp_def]
  have hopen : (pushed.keys.map SyntaxError.Cause.unclosedPush).count (.unclosedPush key) =
      pushed.keys.count key :=
    List.count_map_of_injective _ _ (fun _ _ => SyntaxError.Cause.unclosedPush.inj) key
  have hpops : (pushed.keys.map SyntaxError.Cause.unclosedPush).count (.unbalancedPop key) = 0 :=
    List.count_eq_zero.2 (by simp)
  rw [balance, SyntaxError.balance, hcauses, hopen, hpops]
  exact Int.sub_zero _

/-- A line that ends too early or too late is no pop. -/
theorem balance_unexpected (l : Line) (what : Expectation) :
    balance key [.error (l.unexpected what)] = 0 := by
  have hcause : (∃ text, (l.unexpected what).cause = .expected what text) ∨
      (l.unexpected what).cause = .unexpectedEnd what := by
    unfold Line.unexpected
    split
    · split
      · exact .inr rfl
      · exact .inl ⟨_, rfl⟩
    · exact .inr rfl
  rcases hcause with ⟨text, hcause⟩ | hcause <;>
    simp [balance, SyntaxError.balance, causes, Journal.errors, hcause]

/-- A pop without a push counts against the pushes of its key, and of no other. -/
theorem balance_unbalanced (other : PushKey) (span : Span) :
    balance key [.error ⟨.unbalancedPop other, span⟩] = -([other].count key : Int) := by
  simp [balance, SyntaxError.balance, causes, Journal.errors, List.count_singleton]

end Item

/-- The pushes of a key that are open after a step, less the pops without a push. -/
def Step.balance (key : PushKey) (s : Step) : Int :=
  s.pushed.keys.count key + Item.balance key s.item.toList

end DoubleEntry
