import DoubleEntry.Proofs.Journal.PushKeys

/-!
# Scopes

Some lines open something under a key, others end what is open. A line that ends something ends what
was opened last under its key and is still open; what was opened under other keys in between stays
open.

* `Scope`: such a line.
* `Scope.StaysOpen`: no line further down ends it.
* `Scope.openAfter`: what is open after some lines, in the order of the lines.
* `Scope.openAfter_opening`, `Scope.openAfter_closing_cases`: what one more line changes.
* `Scope.countP_openAfter`: how much is open under a key.
* `Scope.openUnder`: what is open under a key.
-/

namespace DoubleEntry

/-- A line that opens something under a key, or ends what was opened last under a key. -/
inductive Scope (α : Type) where
  | opens (key : String) (a : α)
  | closes (key : String)
deriving DecidableEq

namespace Scope

variable {α : Type} {key : String} {lines : List (Scope α)}

/-- Whether the line opens something under the key. -/
def isOpening (key : String) : Scope α → Bool
  | opens k _ => k = key
  | closes _ => false

/-- Whether the line ends something under the key. -/
def isClosing (key : String) : Scope α → Bool
  | opens _ _ => false
  | closes k => k = key

/-- What was opened under the key in front of some lines is still open after them: up to each of
them, no more lines have ended something under the key than have opened something. -/
def StaysOpen (key : String) (lines : List (Scope α)) : Prop :=
  ∀ first, first <+: lines → first.countP (isClosing key) ≤ first.countP (isOpening key)

/-! ## Ends of what stands before -/

/-- How many of some lines end something under the key that was opened in front of them. -/
def unmatched (key : String) : List (Scope α) → Nat
  | [] => 0
  | opens k _ :: lines => unmatched key lines - if k = key then 1 else 0
  | closes k :: lines => unmatched key lines + if k = key then 1 else 0

theorem unmatched_le_iff {n : Nat} : unmatched key lines ≤ n ↔ ∀ first, first <+: lines →
    first.countP (isClosing key) ≤ first.countP (isOpening key) + n := by
  induction lines generalizing n with
  | nil => simp [unmatched]
  | cons s lines ih =>
    -- The prefixes are the empty one, and those of the other lines with this one in front.
    simp only [List.prefix_cons_iff, forall_eq_or_imp, List.countP_nil, Nat.zero_add,
      Nat.zero_le, true_and, forall_exists_index, and_imp]
    rw [forall_comm]
    simp only [forall_eq, List.countP_cons]
    cases s with
    | opens k a =>
      simp only [unmatched, isOpening, isClosing, decide_eq_true_eq, Bool.false_eq_true,
        if_false, Nat.add_zero]
      rw [Nat.sub_le_iff_le_add, ih]
      exact forall_congr' fun first => imp_congr_right fun _ => by omega
    | closes k =>
      simp only [unmatched, isOpening, isClosing, decide_eq_true_eq, Bool.false_eq_true,
        if_false, Nat.add_zero]
      by_cases hk : k = key
      · simp only [hk, if_true]
        cases n with
        | zero =>
          refine ⟨fun h => absurd h (Nat.not_succ_le_zero _), fun h => ?_⟩
          exact absurd (h [] List.nil_prefix) (Nat.not_succ_le_zero _)
        | succ n =>
          rw [Nat.succ_le_succ_iff, ih]
          exact forall_congr' fun first => imp_congr_right fun _ => by omega
      · simpa only [hk, if_false, Nat.add_zero] using ih

theorem staysOpen_iff : StaysOpen key lines ↔ unmatched key lines = 0 := by
  rw [← Nat.le_zero, unmatched_le_iff]
  rfl

instance : Decidable (StaysOpen key lines) := decidable_of_iff _ staysOpen_iff.symm

/-! ## What is open -/

/-- What is open after some lines, each with its key, in the order of the lines. -/
def openAfter : List (Scope α) → List (String × α)
  | [] => []
  | opens key a :: lines =>
    if StaysOpen key lines then (key, a) :: openAfter lines else openAfter lines
  | closes _ :: lines => openAfter lines

/-- What the line opens. -/
def opening? : Scope α → Option (String × α)
  | opens key a => some (key, a)
  | closes _ => none

theorem openAfter_sublist (lines : List (Scope α)) :
    (openAfter lines).Sublist (lines.filterMap opening?) := by
  induction lines with
  | nil => exact List.Sublist.slnil
  | cons s lines ih =>
    cases s with
    | opens k a =>
      rw [openAfter, List.filterMap_cons]
      split
      · exact ih.cons_cons (k, a)
      · exact ih.cons (k, a)
    | closes k => exact ih

theorem opens_mem_of_mem_openAfter {a : α} (h : (key, a) ∈ openAfter lines) :
    opens key a ∈ lines := by
  obtain ⟨s, hs, hopening⟩ := List.mem_filterMap.1 ((openAfter_sublist lines).subset h)
  cases s with
  | opens k b =>
    obtain ⟨rfl, rfl⟩ := Prod.mk.inj (Option.some.inj hopening)
    exact hs
  | closes k => cases hopening

/-- What is opened under a key is ended by one of the lines or stays open. -/
theorem countP_openAfter (key : String) (lines : List (Scope α)) :
    (openAfter lines).countP (·.1 = key) + lines.countP (isClosing key) =
      lines.countP (isOpening key) + unmatched key lines := by
  induction lines with
  | nil => rfl
  | cons s lines ih =>
    cases s with
    | opens k a =>
      simp only [openAfter, List.countP_cons, unmatched, isOpening, isClosing, staysOpen_iff,
        decide_eq_true_eq, Bool.false_eq_true, if_false, Nat.add_zero]
      by_cases hk : k = key
      · subst hk
        by_cases hopen : unmatched k lines = 0
        · rw [if_pos hopen, List.countP_cons, decide_eq_true rfl, if_pos rfl, if_pos rfl]
          omega
        · rw [if_neg hopen, if_pos rfl]
          omega
      · rw [if_neg hk, Nat.add_zero, Nat.sub_zero, ← ih]
        split
        · rw [List.countP_cons, decide_eq_false hk]
          rfl
        · rfl
    | closes k =>
      simp only [openAfter, List.countP_cons, unmatched, isOpening, isClosing, decide_eq_true_eq,
        Bool.false_eq_true, if_false]
      omega

/-! ## One more line -/

theorem unmatched_opening (lines : List (Scope α)) (key k : String) (a : α) :
    unmatched key (lines ++ [opens k a]) = unmatched key lines := by
  induction lines with
  | nil => exact Nat.zero_sub _
  | cons s lines ih => cases s <;> simp only [List.cons_append, unmatched, ih]

/-- A line that opens something adds it to what is open. -/
theorem openAfter_opening (lines : List (Scope α)) (key : String) (a : α) :
    openAfter (lines ++ [opens key a]) = openAfter lines ++ [(key, a)] := by
  induction lines with
  | nil => simp [openAfter, staysOpen_iff, unmatched]
  | cons s lines ih =>
    cases s with
    | opens k b =>
      simp only [List.cons_append, openAfter, staysOpen_iff, unmatched_opening, ih]
      split <;> rfl
    | closes k => exact ih

theorem unmatched_closing_of_ne {k : String} (h : k ≠ key) (lines : List (Scope α)) :
    unmatched key (lines ++ [closes k]) = unmatched key lines := by
  induction lines with
  | nil => simp [unmatched, h]
  | cons s lines ih => cases s <;> simp only [List.cons_append, unmatched, ih]

theorem eraseLast?_cons_of_some {β : Type} {p : β → Bool} {l l' : List β} (b : β)
    (h : Pushed.eraseLast? p l = some l') : Pushed.eraseLast? p (b :: l) = some (b :: l') := by
  rw [Pushed.eraseLast?, h]

theorem eraseLast?_cons_of_none {β : Type} {p : β → Bool} {l : List β} (b : β)
    (h : Pushed.eraseLast? p l = none) :
    Pushed.eraseLast? p (b :: l) = if p b then some l else none := by
  rw [Pushed.eraseLast?, h]

/-- A line that ends something under a key takes the latest of what is open under it away, or there
is nothing under the key that it could end. -/
theorem openAfter_closing_cases (lines : List (Scope α)) (key : String) :
    Pushed.eraseLast? (·.1 = key) (openAfter lines) =
        some (openAfter (lines ++ [closes key])) ∧
      unmatched key (lines ++ [closes key]) = unmatched key lines ∨
    Pushed.eraseLast? (·.1 = key) (openAfter lines) = none ∧
      openAfter (lines ++ [closes key]) = openAfter lines ∧
      unmatched key (lines ++ [closes key]) = unmatched key lines + 1 := by
  induction lines with
  | nil => exact .inr ⟨rfl, rfl, by simp [unmatched]⟩
  | cons s lines ih =>
    cases s with
    | closes k =>
      simp only [List.cons_append, openAfter, unmatched]
      obtain ⟨herase, hunmatched⟩ | ⟨herase, hopen, hunmatched⟩ := ih
      · exact .inl ⟨herase, by rw [hunmatched]⟩
      · exact .inr ⟨herase, hopen, by omega⟩
    | opens k a =>
      simp only [List.cons_append, openAfter, unmatched, staysOpen_iff]
      by_cases hk : k = key
      · subst hk
        simp only [if_true]
        obtain ⟨herase, hunmatched⟩ | ⟨herase, hopen, hunmatched⟩ := ih
        · -- Something opened further down is taken away.
          refine .inl ⟨?_, by rw [hunmatched]⟩
          rw [hunmatched]
          split
          · exact eraseLast?_cons_of_some (k, a) herase
          · exact herase
        · rw [hopen, hunmatched, if_neg (Nat.succ_ne_zero _)]
          by_cases hfirst : unmatched k lines = 0
          · refine .inl ⟨?_, by omega⟩
            rw [if_pos hfirst, eraseLast?_cons_of_none (k, a) herase, decide_eq_true rfl]
            rfl
          · rw [if_neg hfirst]
            exact .inr ⟨herase, rfl, by omega⟩
      · rw [unmatched_closing_of_ne (Ne.symm hk), if_neg hk]
        obtain ⟨herase, hunmatched⟩ | ⟨herase, hopen, hunmatched⟩ := ih
        · refine .inl ⟨?_, hunmatched⟩
          split
          · exact eraseLast?_cons_of_some (k, a) herase
          · exact herase
        · rw [hopen]
          refine .inr ⟨?_, rfl, hunmatched⟩
          split
          · rw [eraseLast?_cons_of_none (k, a) herase, decide_eq_false hk]
            rfl
          · exact herase

/-! ## Under one key -/

/-- What is open under a key after some lines, in the order of the lines. -/
def openUnder (key : String) (lines : List (Scope α)) : List α :=
  ((openAfter lines).filter (·.1 = key)).map (·.2)

theorem openUnder_opening (lines : List (Scope α)) (key k : String) (a : α) :
    openUnder key (lines ++ [opens k a]) =
      openUnder key lines ++ if k = key then [a] else [] := by
  rw [openUnder, openAfter_opening, List.filter_append, List.map_append]
  by_cases h : k = key <;> simp [openUnder, h]

/-- A line that ends something under a key ends what was opened last under it. -/
theorem openUnder_closing {k : String} (h : unmatched k (lines ++ [closes k]) = 0) :
    (∃ a, openUnder k lines = openUnder k (lines ++ [closes k]) ++ [a]) ∧
      ∀ key, key ≠ k → openUnder key (lines ++ [closes k]) = openUnder key lines := by
  obtain ⟨herase, -⟩ | ⟨-, -, hunmatched⟩ := openAfter_closing_cases lines k
  · obtain ⟨before, ⟨k', a⟩, after, hlines, hclosed, hk, hafter⟩ :=
      Pushed.split_of_eraseLast? herase
    obtain rfl : k' = k := of_decide_eq_true hk
    refine ⟨⟨a, ?_⟩, fun key hkey => ?_⟩
    · have hnone : after.filter (·.1 = k') = [] := List.filter_eq_nil_iff.2 hafter
      simp [openUnder, hlines, hclosed, hnone]
    · simp [openUnder, hlines, hclosed, Ne.symm hkey]
  · omega

/-- Lines further down do not make up for what ends too much. -/
theorem unmatched_le_append (key : String) (lines more : List (Scope α)) :
    unmatched key lines ≤ unmatched key (lines ++ more) :=
  unmatched_le_iff.2 fun first hfirst =>
    unmatched_le_iff.1 (Nat.le_refl (unmatched key (lines ++ more))) first
      (hfirst.trans (List.prefix_append lines more))

/-! ## Lines one after the other -/

/-- What a line makes of what is open, if it opens or ends anything. -/
inductive Moves (l : List (String × α)) : Option (Scope α) → List (String × α) → Prop
  | stays : Moves l none l
  | opens (key : String) (a : α) : Moves l (some (opens key a)) (l ++ [(key, a)])
  | closes {key : String} {l' : List (String × α)}
    (h : Pushed.eraseLast? (·.1 = key) l = some l') : Moves l (some (closes key)) l'

/-- Some lines leave open what they have opened and not ended, and nothing that they end was opened
in front of them. -/
structure Leaves (lines : List (Scope α)) (l : List (String × α)) : Prop where
  eq : openAfter lines = l
  matched : ∀ key, unmatched key lines = 0

namespace Leaves

variable {l l' : List (String × α)}

theorem nil : Leaves ([] : List (Scope α)) [] := ⟨rfl, fun _ => rfl⟩

/-- One more line leaves open what it makes of what was open. -/
theorem moves {s : Option (Scope α)} (h : Leaves lines l) (hmoves : Moves l s l') :
    Leaves (lines ++ s.toList) l' := by
  obtain ⟨rfl, hmatched⟩ := h
  cases hmoves with
  | stays => exact ⟨by rw [Option.toList_none, List.append_nil], by simpa using hmatched⟩
  | opens key a =>
    refine ⟨openAfter_opening lines key a, fun k => ?_⟩
    rw [Option.toList_some, unmatched_opening, hmatched]
  | closes herase =>
    rename_i key
    obtain ⟨hopen, hunmatched⟩ | ⟨hnone, -⟩ := openAfter_closing_cases lines key
    · refine ⟨Option.some.inj (hopen.symm.trans herase), fun k => ?_⟩
      by_cases hk : key = k
      · rw [Option.toList_some, ← hk, hunmatched, hmatched]
      · rw [Option.toList_some, unmatched_closing_of_ne hk, hmatched]
    · rw [hnone] at herase
      cases herase

/-- So much is open under a key as was opened under it more often than ended. -/
theorem countP_add (h : Leaves lines l) (key : String) :
    l.countP (·.1 = key) + lines.countP (isClosing key) = lines.countP (isOpening key) := by
  rw [← h.eq, countP_openAfter, h.matched, Nat.add_zero]

theorem mem_iff (h : Leaves lines l) :
    key ∈ l.map (·.1) ↔ lines.countP (isClosing key) < lines.countP (isOpening key) := by
  have hcount := h.countP_add key
  have hpos : 0 < l.countP (·.1 = key) ↔ key ∈ l.map (·.1) := by
    simp [List.countP_pos_iff]
  rw [← hpos]
  omega

end Leaves

end Scope

end DoubleEntry
