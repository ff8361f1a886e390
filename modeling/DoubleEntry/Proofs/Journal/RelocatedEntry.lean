import DoubleEntry.Journal.Entry
import DoubleEntry.Proofs.Journal.Relocated
import Mathlib.Data.List.Forall2

/-!
# Entries at other places

Postings and directives record in their metadata on which line they stand. But for that, what is
read from a block of lines does not depend on where the block stands, as long as its indented lines
stay as far in as they are.

* `Line.writtenValue_relocates`, `Line.posting_relocates`, `Line.statement_relocates`: the parts of
  a line.
* `Posting.Relocated`, `Placed.Relocated`: postings and directives at other places.
* `Draft.read_relocates`: a transaction is the same wherever it stands.
* `Block.directive_relocates`: so is any directive.
-/

namespace DoubleEntry

namespace Line

variable {r : Relocation} {l : Line}

@[simp] theorem startsExpression_relocated (l : Line) :
    (l.relocated r).startsExpression = l.startsExpression := by
  simp only [startsExpression, nextKind?_relocated]

/-- The same for a line that is known to be the one at the new place. -/
theorem expression_relocates_of_eq {l' : Line} (h : l' = l.relocated r) :
    Relocates r (ShorterRest r) l.expression l'.expression := by
  subst h
  exact expression_relocates l

theorem amount_relocates (l : Line) : Relocates r (Rest r Eq) l.amount (l.relocated r).amount := by
  refine bind_shorter (expression_relocates l) fun n rest _ _ => ?_
  refine bind_rest (currency_relocates rest) fun c rest => ?_
  exact .pure ⟨rfl, rfl⟩

/-! ## Metadata -/

/-- A value is told from the tokens, not from where they stand. -/
theorem writtenValue_relocates (l : Line) :
    Relocates r (ShorterRest r) l.writtenValue (l.relocated r).writtenValue := by
  unfold writtenValue
  refine .ite (by simp) (fun _ => ?_) fun _ => ?_
  · refine bind_shorter (expression_relocates l) fun n rest _ _ => ?_
    obtain ⟨indent, _ | ⟨t, ts⟩, ending⟩ := rest
    · exact .pure ⟨rfl, rfl⟩
    · exact .ite Iff.rfl (fun _ => .pure ⟨rfl, rfl⟩) fun _ => .pure ⟨rfl, rfl⟩
  · obtain ⟨indent, _ | ⟨⟨kind, span, place, text⟩, ts⟩, ending⟩ := l
    · exact unexpected_relocates _ _
    · cases kind with
      | date =>
        refine (dateValue_relocates _).bind ?_
        rintro d _ rfl
        exact .pure ⟨rfl, rfl⟩
      | string | account | currency | tag | link | bool | null => exact .pure ⟨rfl, rfl⟩
      | _ => exact unexpected_relocates _ _

theorem value_relocates (l : Line) : Relocates r (Rest r Eq) l.value (l.relocated r).value := by
  unfold value
  refine .ite (by simp) (fun _ => .pure ⟨rfl, rfl⟩) fun _ => ?_
  refine bind_shorter (writtenValue_relocates l) fun v rest _ _ => ?_
  exact .pure ⟨rfl, rfl⟩

/-- However many values there are, they are the same. -/
theorem values_relocates (l : Line) : Relocates r (Rest r Eq) l.values (l.relocated r).values := by
  rw [values, values]
  refine .ite (by simp) (fun _ => .pure ⟨rfl, rfl⟩) fun _ => ?_
  refine bind_shorter (writtenValue_relocates l) fun v rest hrest _ => ?_
  refine bind_rest (values_relocates rest) fun vs rest => ?_
  exact .pure ⟨rfl, rfl⟩
termination_by l.size

/-- The keys that are written on the line. -/
def Writes (l : Line) (key : String) : Prop :=
  ∃ t ∈ l.tokens, t.kind = .metaKey ∧ keyName t = key

/-- A key has the same value, and it is a key that the line writes. -/
theorem keyValue_relocates (l : Line) :
    Relocates r (fun p q => p = q ∧ l.Writes p.1) l.keyValue (l.relocated r).keyValue := by
  unfold keyValue key
  rw [bind_assoc, bind_assoc]
  refine (token_relocates_mem l _ _).bind ?_
  rintro ⟨t, rest⟩ ⟨_, _⟩ ⟨⟨rfl, hmem, hkind⟩, rfl⟩
  change Relocates r _ (rest.value >>= _) ((rest.relocated r).value >>= _)
  refine bind_rest (value_relocates rest) fun v rest => ?_
  refine (finish_relocates rest).bind fun _ _ _ => ?_
  exact .pure ⟨rfl, t, hmem, hkind, rfl⟩

/-! ## Postings -/

/-- The parts of a cost are the same in whichever order they come. -/
theorem costComponents_relocates (double : Bool) (cost : Cost) (l : Line) :
    Relocates r (Rest r Eq) (l.costComponents double cost)
      ((l.relocated r).costComponents double cost) := by
  rw [costComponents, costComponents]
  obtain ⟨indent, _ | ⟨⟨kind, span, place, text⟩, ts⟩, ending⟩ := l
  · exact unexpected_relocates _ _
  · refine .ite Iff.rfl (fun _ => .pure ⟨rfl, rfl⟩) fun _ => ?_
    refine .ite Iff.rfl (fun _ => ?_) fun _ => ?_
    · refine bind_shorter (expression_relocates _) fun n rest hrest _ => ?_
      exact costComponents_relocates double _ rest
    · cases kind with
      | comma | star | currency | string => exact costComponents_relocates double _ _
      | hash =>
        refine bind_shorter (expression_relocates _) fun n rest hrest _ => ?_
        exact costComponents_relocates double _ rest
      | date =>
        refine (dateValue_relocates _).bind ?_
        rintro d _ rfl
        exact costComponents_relocates double _ _
      | _ => exact unexpected_relocates _ _
termination_by l.size
-- The rest is that of an expression, of one token, or of an expression after one.
decreasing_by
  all_goals first
    | exact hrest
    | exact Nat.lt_succ_self _
    | exact Nat.lt_trans hrest (Nat.lt_succ_self _)

theorem skip_relocated (l : Line) :
    (l.relocated r).withTokens (l.relocated r).tokens.tail =
      (l.withTokens l.tokens.tail).relocated r := by
  rw [relocated_withTokens, List.map_tail, relocated_tokens]

theorem cost?_relocates (l : Line) : Relocates r (Rest r Eq) l.cost? (l.relocated r).cost? := by
  unfold cost?
  rw [nextKind?_relocated, skip_relocated]
  split
  · refine bind_rest (costComponents_relocates _ _ _) fun c rest => ?_
    exact .pure ⟨rfl, rfl⟩
  · refine bind_rest (costComponents_relocates _ _ _) fun c rest => ?_
    exact .pure ⟨rfl, rfl⟩
  · exact .pure ⟨rfl, rfl⟩

theorem price?_relocates (l : Line) : Relocates r (Rest r Eq) l.price? (l.relocated r).price? := by
  unfold price?
  rw [nextKind?_relocated, skip_relocated]
  split
  · refine bind_rest (amount_relocates _) fun a rest => ?_
    exact .pure ⟨rfl, rfl⟩
  · refine bind_rest (amount_relocates _) fun a rest => ?_
    exact .pure ⟨rfl, rfl⟩
  · exact .pure ⟨rfl, rfl⟩

theorem units?_relocates (l : Line) : Relocates r (Rest r Eq) l.units? (l.relocated r).units? := by
  unfold units?
  refine .ite (by simp) (fun _ => ?_) fun _ => .ite (by simp) (fun _ => ?_) fun _ => ?_
  · refine bind_shorter (expression_relocates l) fun n rest _ _ => ?_
    refine .ite (by simp) (fun _ => ?_) fun _ => .pure ⟨rfl, rfl⟩
    refine bind_rest (currency_relocates rest) fun c rest => ?_
    exact .pure ⟨rfl, rfl⟩
  · refine bind_rest (currency_relocates l) fun c rest => ?_
    exact .pure ⟨rfl, rfl⟩
  · exact .pure ⟨rfl, rfl⟩

/-- A posting has its flag wherever it stands. -/
theorem postingFlag?_relocated (l : Line) :
    (l.relocated r).postingFlag? = (l.postingFlag?.1, l.postingFlag?.2.relocated r) := by
  obtain ⟨indent, _ | ⟨t, ts⟩, ending⟩ := l
  · rfl
  · unfold postingFlag?
    simp only [relocated, List.map_cons]
    by_cases h : t.isPostingFlag
    · rw [if_pos h, if_pos (show (t.relocated r).isPostingFlag from h)]
      rfl
    · rw [if_neg h, if_neg (show ¬(t.relocated r).isPostingFlag from h)]
      rfl

end Line

/-- Puts values under keys, one after the other. -/
def Metadata.insertAll (d : Metadata) (entries : List (String × MetaValue)) : Metadata :=
  entries.foldl (fun d e => d.insert e.1 e.2) d

/-- Of the values under a key the last one counts. -/
theorem Metadata.get?_insertAll (d : Metadata) (entries : List (String × MetaValue))
    (key : String) : (d.insertAll entries).get? key =
      ((entries.filter (·.1 = key)).getLast?.map (·.2)).or (d.get? key) := by
  induction entries generalizing d with
  | nil => rfl
  | cons e entries ih =>
    rw [insertAll, List.foldl_cons, ← insertAll, ih, get?_insert]
    by_cases he : e.1 = key
    · rw [if_pos he.symm, List.filter_cons_of_pos (by simpa using he), List.getLast?_cons]
      cases (entries.filter (·.1 = key)).getLast? <;> rfl
    · rw [if_neg (Ne.symm he), List.filter_cons_of_neg (by simpa using he)]

/-- The number of the line goes before what was there. -/
theorem Metadata.get?_setLine_eq (m : Metadata) (line : Nat) (key : String) :
    (m.setLine line).get? key =
      (if key = lineKey then (Decimal.ofNat? line).map .number else none).or (m.get? key) := by
  unfold setLine
  cases Decimal.ofNat? line with
  | none => simp
  | some n =>
    rw [get?_insert]
    by_cases h : key = lineKey <;> simp [h]

/-- The posting at its new place. Its metadata begins with the line on which it starts, after which
come entries with keys that are written. -/
structure Posting.Relocated (r : Relocation) (written : String → Prop) (p q : Posting) : Prop where
  metadata : ∃ line entries, (∀ e ∈ entries, written e.1) ∧
    p.metadata = (({} : Metadata).setLine line).insertAll entries ∧
    q.metadata = (({} : Metadata).setLine (r.line line)).insertAll entries
  others : q = { p with metadata := q.metadata }

/-- A key that is written may be added at both places. -/
theorem Posting.Relocated.insert {r : Relocation} {written : String → Prop} {p q : Posting}
    (h : p.Relocated r written q) {key : String} (hkey : written key) (value : MetaValue) :
    Relocated r written { p with metadata := p.metadata.insert key value }
      { q with metadata := q.metadata.insert key value } := by
  obtain ⟨line, entries, hentries, hp, hq⟩ := h.metadata
  refine ⟨⟨line, entries ++ [(key, value)], ?_, ?_, ?_⟩, ?_⟩
  · simp only [List.mem_append, List.mem_singleton]
    rintro e (he | rfl)
    · exact hentries e he
    · exact hkey
  · simp only [hp, Metadata.insertAll, List.foldl_append, List.foldl_cons, List.foldl_nil]
  · simp only [hq, Metadata.insertAll, List.foldl_append, List.foldl_cons, List.foldl_nil]
  · rw [h.others]

namespace Line

variable {r : Relocation} {l : Line}

/-- A posting is the same but for the line that its metadata records first. -/
theorem posting_relocates (written : String → Prop) (l : Line) :
    Relocates r (Posting.Relocated r written) l.posting (l.relocated r).posting := by
  obtain ⟨indent, _ | ⟨t, ts⟩, ending⟩ := l
  · -- The line number 0 of an empty line does not move, but without an account it is not used.
    exact unexpected_relocates ⟨indent, [], ending⟩ .account
  · unfold posting
    rw [postingFlag?_relocated]
    refine bind_rest (account_relocates _) fun account rest => ?_
    refine bind_rest (units?_relocates rest) fun units rest => ?_
    refine bind_rest (cost?_relocates rest) fun cost rest => ?_
    refine bind_rest (price?_relocates rest) fun price rest => ?_
    refine (finish_relocates rest).bind fun _ _ _ => ?_
    exact .pure ⟨⟨t.line, [], by simp, rfl, rfl⟩, rfl⟩

/-! ## Simple directives -/

theorem moreCurrencies_relocates (l : Line) :
    Relocates r (Rest r Eq) l.moreCurrencies (l.relocated r).moreCurrencies := by
  rw [moreCurrencies, moreCurrencies]
  obtain ⟨indent, _ | ⟨t, ts⟩, ending⟩ := l
  · exact .pure ⟨rfl, rfl⟩
  · refine .ite Iff.rfl (fun _ => ?_) fun _ => .pure ⟨rfl, rfl⟩
    obtain _ | ⟨c, ts⟩ := ts
    · exact unexpected_relocates _ _
    · refine .ite Iff.rfl (fun _ => ?_) fun _ => unexpected_relocates _ _
      refine bind_rest (moreCurrencies_relocates _) fun cs rest => ?_
      exact .pure ⟨rfl, rfl⟩
termination_by l.size
decreasing_by exact Nat.lt_succ_of_lt (Nat.lt_succ_self _)

/-- The currencies of a directive are the same. -/
theorem currencies_relocates (l : Line) :
    Relocates r (Rest r Eq) l.currencies (l.relocated r).currencies := by
  unfold currencies
  refine .ite (by simp) (fun _ => ?_) fun _ => .pure ⟨rfl, rfl⟩
  refine bind_rest (currency_relocates l) fun c rest => ?_
  refine bind_rest (moreCurrencies_relocates rest) fun cs rest => ?_
  exact .pure ⟨rfl, rfl⟩

theorem string?_relocates (l : Line) :
    Relocates r (Rest r Eq) l.string? (l.relocated r).string? := by
  unfold string?
  refine .ite (by simp) (fun _ => ?_) fun _ => .pure ⟨rfl, rfl⟩
  refine bind_rest (string_relocates l) fun s rest => ?_
  exact .pure ⟨rfl, rfl⟩

theorem tolerance?_relocates (l : Line) :
    Relocates r (Rest r Eq) l.tolerance? (l.relocated r).tolerance? := by
  unfold tolerance?
  refine .ite (by simp) (fun _ => ?_) fun _ => .pure ⟨rfl, rfl⟩
  refine bind_shorter (expression_relocates_of_eq (skip_relocated l)) fun n rest _ _ => ?_
  exact .pure ⟨rfl, rfl⟩

/-- A directive that takes two things. -/
theorem both_relocates {α β : Type} {read : Line → Reading (α × Line)}
    {read' : Line → Reading (β × Line)} (make : α → β → Directive.Body)
    (h : ∀ l, Relocates r (Rest r Eq) (read l) (read (l.relocated r)))
    (h' : ∀ l, Relocates r (Rest r Eq) (read' l) (read' (l.relocated r)))
    (hmake : ∀ a b t, make a b ≠ .transaction t) (l : Line) :
    Relocates r (fun p q => Rest r Eq p q ∧ ∀ t, p.1 ≠ .transaction t)
      (read l >>= fun (a, l) => read' l >>= fun (b, l) => pure (make a b, l))
      (read (l.relocated r) >>= fun (a, l) => read' l >>= fun (b, l) => pure (make a b, l)) := by
  refine bind_rest (h l) fun a rest => ?_
  refine bind_rest (h' rest) fun b rest => ?_
  exact .pure ⟨⟨rfl, rfl⟩, hmake a b⟩

/-- What a directive says after its keyword is the same, and it is no transaction. -/
theorem statement_relocates (keyword : Keyword) (place : Span) (l : Line) :
    Relocates r (fun p q => Rest r Eq p q ∧ ∀ t, p.1 ≠ .transaction t) (l.statement keyword place)
      ((l.relocated r).statement keyword (place.relocated r)) := by
  cases keyword with
  | opening =>
    refine bind_rest (account_relocates l) fun account rest => ?_
    refine bind_rest (currencies_relocates rest) fun currencies rest => ?_
    refine bind_rest (string?_relocates rest) fun booking rest => ?_
    exact .pure ⟨⟨rfl, rfl⟩, nofun⟩
  | closing =>
    refine bind_rest (account_relocates l) fun account rest => ?_
    exact .pure ⟨⟨rfl, rfl⟩, nofun⟩
  | balance =>
    refine bind_rest (account_relocates l) fun account rest => ?_
    refine bind_shorter (expression_relocates rest) fun n rest _ _ => ?_
    refine bind_rest (tolerance?_relocates rest) fun tolerance rest => ?_
    refine bind_rest (currency_relocates rest) fun currency rest => ?_
    exact .pure ⟨⟨rfl, rfl⟩, nofun⟩
  | commodity =>
    refine bind_rest (currency_relocates l) fun currency rest => ?_
    exact .pure ⟨⟨rfl, rfl⟩, nofun⟩
  | pad =>
    exact both_relocates (fun a b => .pad ⟨a, b⟩) account_relocates account_relocates
      (fun _ _ _ => nofun) l
  | price => exact both_relocates .price currency_relocates amount_relocates (fun _ _ _ => nofun) l
  | note => exact both_relocates .note account_relocates string_relocates (fun _ _ _ => nofun) l
  | document =>
    exact both_relocates .document account_relocates string_relocates (fun _ _ _ => nofun) l
  | event => exact both_relocates .event string_relocates string_relocates (fun _ _ _ => nofun) l
  | query => exact both_relocates .query string_relocates string_relocates (fun _ _ _ => nofun) l
  | custom => exact both_relocates .custom string_relocates values_relocates (fun _ _ _ => nofun) l
  | _ => exact .throw _

end Line

/-! ## Drafts -/

variable {r : Relocation} {written : String → Prop} {l : Line} {d e : Draft}

/-- A loop over what has moved does the same as the loop before, if each of its steps does. -/
theorem Relocates.foldlM {α β γ δ : Type} {R : α → β → Prop} {f : α → γ → Reading α}
    {g : β → δ → Reading β} {move : γ → δ} {cs : List γ}
    (h : ∀ c ∈ cs, ∀ a b, R a b → Relocates r R (f a c) (g b (move c))) {a : α} {b : β}
    (hab : R a b) :
    Relocates r R (cs.foldlM f a) ((cs.map move).foldlM g b) := by
  induction cs generalizing a b with
  | nil => exact .pure hab
  | cons c cs ih =>
    simp only [List.map_cons, List.foldlM_cons]
    exact (h c List.mem_cons_self a b hab).bind fun a' b' hab' =>
      ih (fun c hc => h c (List.mem_cons_of_mem _ hc)) hab'

/-- The line stays as far in as it is. -/
def Line.KeepsIndent (r : Relocation) (l : Line) : Prop :=
  (l.relocated r).indentWidth = l.indentWidth

/-- Lists that are related stay so when the same element of both is changed alike. -/
theorem forall₂_modify {α β : Type} {R : α → β → Prop} {f : α → α} {g : β → β}
    (hfg : ∀ a b, R a b → R (f a) (g b)) {as : List α} {bs : List β} (h : List.Forall₂ R as bs)
    (i : Nat) : List.Forall₂ R (as.modify i f) (bs.modify i g) := by
  induction h generalizing i with
  | nil => cases i <;> exact .nil
  | cons hab h ih =>
    cases i with
    | zero => exact .cons (hfg _ _ hab) h
    | succ i => exact .cons hab (ih i)

/-- The transaction with its postings at their new places. -/
inductive Transaction.Relocated (r : Relocation) (written : String → Prop) :
    Transaction → Transaction → Prop
  | mk {t : Transaction} {ps : List Posting}
    (h : List.Forall₂ (Posting.Relocated r written) t.postings ps) :
    Relocated r written t { t with postings := ps }

namespace Draft

/-- The draft with its postings at their new places. -/
inductive Relocated (r : Relocation) (written : String → Prop) : Draft → Draft → Prop
  | mk {d : Draft} {ps : List Posting}
    (h : List.Forall₂ (Posting.Relocated r written) d.transaction.postings ps) :
    Relocated r written d { d with transaction.postings := ps }

theorem Relocated.addTag (h : Relocated r written d e) (tag : String) :
    Relocated r written (d.addTag tag) (e.addTag tag) := by
  obtain ⟨hps⟩ := h
  by_cases htag : tag ∈ d.transaction.tags
  · simp only [Draft.addTag, if_pos htag]
    exact ⟨hps⟩
  · simp only [Draft.addTag, if_neg htag]
    exact .mk (d := { d with transaction.tags := d.transaction.tags ++ [tag] }) hps

theorem Relocated.addLink (h : Relocated r written d e) (link : String) :
    Relocated r written (d.addLink link) (e.addLink link) := by
  obtain ⟨hps⟩ := h
  by_cases hlink : link ∈ d.transaction.links
  · simp only [Draft.addLink, if_pos hlink]
    exact ⟨hps⟩
  · simp only [Draft.addLink, if_neg hlink]
    exact .mk (d := { d with transaction.links := d.transaction.links ++ [link] }) hps

theorem Relocated.addPosting (h : Relocated r written d e) {p q : Posting}
    (hpq : p.Relocated r written q) (indent : Nat) :
    Relocated r written
      { d with
        transaction.postings := d.transaction.postings ++ [p]
        postingIndent := indent }
      { e with
        transaction.postings := e.transaction.postings ++ [q]
        postingIndent := indent } := by
  obtain ⟨hps⟩ := h
  have happend := List.rel_append hps (.cons hpq .nil)
  exact .mk (d := { d with
    transaction.postings := d.transaction.postings ++ [p]
    postingIndent := indent }) happend

/-- Metadata goes to the same posting at both places, or to the transaction at both. -/
theorem Relocated.addMetadata (h : Relocated r written d e) (indent : Nat) {key : String}
    (hkey : written key) (value : MetaValue) :
    Relocated r written (d.addMetadata indent key value) (e.addMetadata indent key value) := by
  obtain ⟨hps⟩ := h
  rename_i ps
  have hlength := hps.length_eq
  have hnil : d.transaction.postings ≠ [] ↔ ps ≠ [] := by
    rw [← List.length_pos_iff, ← List.length_pos_iff, hlength]
  by_cases hlast : d.transaction.postings ≠ [] ∧ d.postingIndent < indent
  · simp only [Draft.addMetadata, if_pos hlast, if_pos (And.imp_left hnil.1 hlast), ← hlength]
    exact .mk (d := { d with transaction.postings := _ })
      (forall₂_modify (fun p q hpq => hpq.insert hkey value) hps _)
  · simp only [Draft.addMetadata, if_neg hlast, if_neg (mt (And.imp_left hnil.2) hlast)]
    exact .mk (d := { d with metadata := _ }) hps

theorem Relocated.foldl {α β : Type} {add : Draft → α → Draft} {add' : Draft → β → Draft}
    {move : α → β}
    (hadd : ∀ d e a, Relocated r written d e → Relocated r written (add d a) (add' e (move a)))
    (h : Relocated r written d e) (as : List α) :
    Relocated r written (as.foldl add d) ((as.map move).foldl add' e) := by
  induction as generalizing d e with
  | nil => exact h
  | cons a as ih => exact ih (hadd d e a h)

/-- The tags and links of a line are the same. -/
theorem Relocated.readTags (h : Relocated r written d e) (l : Line) :
    Line.Rest r (Relocated r written) (d.readTags l) (e.readTags (l.relocated r)) := by
  unfold Draft.readTags
  rw [Line.relocated_tokens, List.takeWhile_map, List.dropWhile_map]
  refine ⟨h.foldl (fun d e t h => ?_) _, rfl⟩
  by_cases hkind : t.kind = .tag
  · rw [if_pos hkind, if_pos (show (t.relocated r).kind = .tag from hkind)]
    exact h.addTag _
  · rw [if_neg hkind, if_neg (show ¬(t.relocated r).kind = .tag from hkind)]
    exact h.addLink _

/-- Tags and links to the end of the line. -/
theorem Relocated.finishTags (h : Relocated r written d e) (l : Line) :
    Relocates r (Relocated r written)
      (let (d, rest) := d.readTags l
      do
        rest.finish
        return d)
      (let (e, rest) := e.readTags (l.relocated r)
      do
        rest.finish
        return e) := by
  have htags := h.readTags l
  generalize d.readTags l = p at htags
  generalize e.readTags (l.relocated r) = q at htags
  obtain ⟨d, rest⟩ := p
  obtain ⟨e, _⟩ := q
  obtain ⟨h, rfl⟩ := htags
  exact (Line.finish_relocates rest).bind fun _ _ _ => .pure h

/-- An indented line adds the same, as long as it stays as far in as it is. -/
theorem readLine_relocates (hl : ∀ key, l.Writes key → written key) (hindent : l.KeepsIndent r)
    (h : Relocated r written d e) :
    Relocates r (Relocated r written) (d.readLine l) (e.readLine (l.relocated r)) := by
  unfold readLine
  cases htokens : l.tokens with
  | nil =>
    rw [Line.relocated_tokens_nil htokens]
    exact .pure h
  | cons t ts =>
    rw [Line.relocated_tokens_cons htokens]
    refine .ite Iff.rfl (fun _ => ?_) fun _ => .ite Iff.rfl (fun _ => ?_) fun _ =>
      .ite Iff.rfl (fun _ => ?_) fun _ => .ite Iff.rfl (fun _ => ?_) fun _ => ?_
    · exact (Line.finish_relocates l).bind fun _ _ _ => .pure h
    · refine (Line.keyValue_relocates l).bind ?_
      rintro ⟨key, value⟩ _ ⟨rfl, hkey⟩
      rw [hindent]
      exact .pure (h.addMetadata _ (hl key hkey) value)
    · exact h.finishTags l
    · refine (Line.posting_relocates written l).bind fun p q hpq => ?_
      rw [hindent]
      exact .pure (h.addPosting hpq _)
    · exact Line.unexpected_relocates l _

/-- The first line of a transaction gives the same strings, tags and links. -/
theorem readHead_relocates (written : String → Prop) (flag : Char) (l : Line) :
    Relocates r (Relocated r written) (readHead flag l) (readHead flag (l.relocated r)) := by
  unfold readHead
  have hstrings : (l.relocated r).tokens.takeWhile (·.kind = .string) =
      (l.tokens.takeWhile (·.kind = .string)).map (Token.relocated r) := by
    rw [Line.relocated_tokens, List.takeWhile_map]
    rfl
  have hdrop (n : Nat) : (l.relocated r).withTokens ((l.relocated r).tokens.drop n) =
      (l.withTokens (l.tokens.drop n)).relocated r := by
    rw [Line.relocated_withTokens, List.map_drop, Line.relocated_tokens]
  have hvalues (ts : List Token) :
      (ts.map (Token.relocated r)).map Line.stringValue = ts.map Line.stringValue := by
    rw [List.map_map]
    rfl
  have hstart (payee : Option String) (narration : String) :
      Relocated r written { transaction := { flag, payee, narration } }
        { transaction := { flag, payee, narration } } := .mk .nil
  simp only [hstrings, List.length_map, hdrop, hvalues]
  split
  · exact (hstart _ _).finishTags _
  · exact (hstart _ _).finishTags _
  · exact (hstart _ _).finishTags _
  · exact Line.unexpected_relocates _ _

end Draft

/-- The pushed tags and metadata with their places relocated. -/
def Pushed.relocated (r : Relocation) (p : Pushed) : Pushed where
  tags := p.tags.map fun (tag, span) => (tag, span.relocated r)
  metadata := p.metadata.map fun (key, value, span) => (key, value, span.relocated r)

/-- The block with its lines relocated. -/
def Block.relocated (r : Relocation) (b : Block) : Block :=
  ⟨b.head.relocated r, b.body.map (Line.relocated r)⟩

/-- The keys that are written on the lines below the first. -/
def Block.Writes (b : Block) (key : String) : Prop := ∃ l ∈ b.body, l.Writes key

theorem Draft.read_relocates {body : List Line} (pushed : Pushed) (flag : Char) (l : Line)
    (hbody : ∀ l ∈ body, ∀ key, l.Writes key → written key)
    (hindent : ∀ l ∈ body, l.KeepsIndent r) :
    Relocates r (Draft.Relocated r written) (Draft.read pushed flag l body)
      (Draft.read (pushed.relocated r) flag (l.relocated r) (body.map (Line.relocated r))) := by
  have hstep : ∀ l ∈ body, ∀ d e, Draft.Relocated r written d e →
      Relocates r (Draft.Relocated r written) (d.readLine l) (e.readLine (l.relocated r)) :=
    fun l hl d e h => Draft.readLine_relocates (hbody l hl) (hindent l hl) h
  refine (Draft.readHead_relocates written flag l).bind fun d e h => ?_
  refine (Relocates.foldlM hstep h).bind fun d e h => ?_
  exact .pure (h.foldl (fun d e tag h => h.addTag tag.1) _)

/-! ## Whole directives -/

/-- Metadata is the same, and it ends at the new place of its end. -/
theorem readMetadata_relocates (base : Metadata) (stop : Nat) (lines : List Line) :
    Relocates r (fun p q => q = (p.1, r.offset p.2.1, p.2.2.map (Line.relocated r)))
      (readMetadata base stop lines)
      (readMetadata base (r.offset stop) (lines.map (Line.relocated r))) := by
  induction lines generalizing base stop with
  | nil => exact .pure rfl
  | cons l lines ih =>
    rw [List.map_cons, readMetadata, readMetadata]
    refine .ite (by simp) (fun _ => ?_) fun _ => .ite (by simp) (fun _ => ?_) fun _ => ?_
    · refine (Line.keyValue_relocates l).bind ?_
      rintro ⟨key, value⟩ _ ⟨rfl, -⟩
      exact ih _ _
    · exact (Line.finish_relocates l).bind fun _ _ _ => ih _ _
    · exact .pure rfl

/-- What the directive says, at its new place. -/
inductive Directive.Body.Relocated (r : Relocation) (written : String → Prop) : Body → Body → Prop
  | transaction {t u : Transaction} (h : t.Relocated r written u) :
    Relocated r written (.transaction t) (.transaction u)
  | other {b : Body} (h : ∀ t, b ≠ .transaction t) : Relocated r written b b

/-- The directive at its new place, with another line in its metadata. -/
structure Placed.Relocated (r : Relocation) (written : String → Prop) (p q : Placed Directive) :
    Prop where
  date : q.value.date = p.value.date
  metadata : ∃ line base, p.value.metadata = Metadata.setLine base line ∧
    q.value.metadata = base.setLine (r.line line)
  body : p.value.body.Relocated r written q.value.body
  span : q.span = p.span.relocated r

/-- A directive is relocated if what it says is, and its range goes along. -/
theorem Placed.relocated_mk {x y : Directive.Body} (h : x.Relocated r written y) (pushed : Pushed)
    (date : Date) (base : Metadata) (line : Nat) (start : Span) {stop stop' : Nat}
    (hstop : stop' = r.offset stop) :
    Relocated r written ⟨⟨date, pushed.complete base line, x⟩, ⟨start.start, max stop start.stop⟩⟩
      ⟨⟨date, (pushed.relocated r).complete base (r.line line), y⟩,
        ⟨(start.relocated r).start, max stop' (start.relocated r).stop⟩⟩ where
  date := rfl
  metadata := ⟨line, _, rfl, by rw [Pushed.complete, Pushed.relocated, List.foldl_map]⟩
  body := h
  span := by simp only [hstop, Span.relocated, r.monotone.map_max]

/-- Where the last line ends goes where that line goes. -/
theorem lastStop_relocated (stop : Nat) (lines : List Line) :
    lastStop (r.offset stop) (lines.map (Line.relocated r)) = r.offset (lastStop stop lines) := by
  rw [lastStop, lastStop, List.getLast?_map]
  cases lines.getLast? <;> rfl

theorem Block.directive_relocates (pushed : Pushed) (b : Block)
    (hb : ∀ key, b.Writes key → written key) (hindent : ∀ l ∈ b.body, l.KeepsIndent r) :
    Relocates r (fun p q => p.1.Relocated r written q.1 ∧ p.1.span.start = b.head.here.start ∧
        q.2 = p.2.map (Line.relocated r))
      (b.directive pushed) ((b.relocated r).directive (pushed.relocated r)) := by
  obtain ⟨⟨indent, _ | ⟨first, firsts⟩, ending⟩, body⟩ := b
  · exact Line.unexpected_relocates _ _
  · have hbody (l : Line) (hl : l ∈ body) (key : String) (hkey : l.Writes key) : written key :=
      hb key ⟨l, hl, hkey⟩
    unfold Block.directive
    refine (Line.date_relocates _).bind ?_
    rintro ⟨date, ⟨_, _ | ⟨⟨kind, span, place, text⟩, ts⟩, _⟩⟩ ⟨_, _⟩ ⟨rfl, rfl⟩
    · exact .throw _
    · refine .ite Iff.rfl (fun _ => ?_) fun _ => .ite Iff.rfl (fun _ => ?_) fun _ => ?_
      · refine (Draft.read_relocates pushed _ _ hbody hindent).bind ?_
        rintro d e ⟨hps⟩
        exact .pure
          ⟨Placed.relocated_mk (.transaction ⟨hps⟩) _ _ _ _ _ (lastStop_relocated _ _), rfl, rfl⟩
      · refine (Draft.read_relocates pushed _ _ hbody hindent).bind ?_
        rintro d e ⟨hps⟩
        exact .pure
          ⟨Placed.relocated_mk (.transaction ⟨hps⟩) _ _ _ _ _ (lastStop_relocated _ _), rfl, rfl⟩
      · cases kind with
        | keyword k =>
          refine (Line.statement_relocates k span _).bind ?_
          rintro ⟨x, rest⟩ ⟨_, _⟩ ⟨⟨rfl, rfl⟩, hx⟩
          refine (Line.finish_relocates rest).bind fun _ _ _ => ?_
          refine (readMetadata_relocates {} ending.stop body).bind ?_
          rintro ⟨base, stop, leftover⟩ _ rfl
          exact .pure ⟨Placed.relocated_mk (.other hx) _ _ _ _ _ rfl, rfl, rfl⟩
        | _ => exact .throw _

end DoubleEntry
