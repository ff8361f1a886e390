import DoubleEntry.Journal.Basic
import DoubleEntry.Proofs.Journal.Reads
import Mathlib.Data.List.TakeWhile

/-!
# What reading an entry ends with

Reading a directive with its postings and its metadata ends as reading its lines does: a syntax
error is at a place of one of them, and it fails only if an expression on one of them does.

* `Line.posting_reads`, `Line.statement_reads`, …: the parts of a line.
* `Line.SomeHolds`, `Line.SomeBlames`, `Line.SomeOverflows`: a place, an error or a failing
  expression on one of some lines.
* `Draft.read_reads`: a transaction.
* `Block.directive_reads`: any directive, which starts at the first token of its block.
-/

namespace DoubleEntry

namespace Line

variable {l l' : Line} {t : Token} {ts : List Token}

theorem amount_reads (h : l'.Within l) : l.Leaves l.Overflows l'.amount :=
  (expression_reads h).bind fun _ h => (currency_reads h).bind fun _ h => .pure h

/-! ## Metadata -/

/-- Of the values, only numbers have arithmetic that can fail. -/
theorem writtenValue_reads (h : l'.Within l) : l.LeavesShorter l.Overflows l'.writtenValue := by
  unfold writtenValue
  refine .ite (fun _ => ?_) fun _ => ?_
  · refine (expression_reads h).bind fun ⟨n, rest, hrest⟩ h => ?_
    obtain ⟨indent, _ | ⟨t, ts⟩, ending⟩ := rest
    · exact .pure h
    · exact .ite (fun ht => .pure ((within_tail rfl (by simp [ht])).trans h)) fun _ => .pure h
  · obtain ⟨indent, _ | ⟨⟨kind, span, place, text⟩, ts⟩, ending⟩ := l'
    · exact unexpected_reads h _
    · have htail (hkind : kind ≠ .error) : (Line.mk indent ts ending).Within l :=
        (within_tail rfl hkind).trans h
      cases kind with
      | date =>
        refine (dateValue_reads (mem_of_within h List.mem_cons_self)).bind fun d _ => ?_
        exact .pure (htail (by decide))
      | string | account | currency | tag | link | null => exact .pure (htail (by decide))
      | bool b => exact .pure (htail (by simp))
      | _ => exact unexpected_reads h _

theorem value_reads (h : l'.Within l) : l.Leaves l.Overflows l'.value :=
  .ite (fun _ => .pure h) fun _ => (writtenValue_reads h).bind fun _ h => .pure h

/-- However many values are read, a rest of the line is left. -/
theorem values_reads (l' : Line) (h : l'.Within l) : l.Leaves l.Overflows l'.values := by
  rw [values]
  refine .ite (fun _ => .pure h) fun _ => ?_
  refine (writtenValue_reads h).bind fun ⟨v, rest, hrest⟩ h => ?_
  exact (values_reads _ h).bind fun _ h => .pure h
termination_by l'.size

theorem keyValue_reads (h : l'.Within l) :
    Reads (fun _ => True) l.Blames l.Overflows l'.keyValue := by
  unfold keyValue key
  rw [bind_assoc]
  refine (token_reads h (by decide) _).bind fun _ h => ?_
  refine (value_reads h.2).bind fun _ h => ?_
  exact (finish_reads h).bind fun _ _ => .pure trivial

/-! ## Postings -/

/-- The parts of a cost may come in any order, and a rest of the line is left behind them. -/
theorem costComponents_reads (double : Bool) (cost : Cost) (l' : Line) :
    l'.Within l → l.Leaves l.Overflows (l'.costComponents double cost) := by
  rw [costComponents]
  obtain ⟨indent, _ | ⟨⟨kind, span, place, text⟩, ts⟩, ending⟩ := l' <;> intro h
  · exact unexpected_reads h _
  · have htail (hkind : kind ≠ .error) : (Line.mk indent ts ending).Within l :=
      (within_tail rfl hkind).trans h
    refine .ite (fun hkind => .pure (htail ?_)) fun _ => ?_
    · change kind = _ at hkind
      rw [hkind]
      split <;> decide
    refine .ite (fun _ => ?_) fun _ => ?_
    · refine (expression_reads h).bind fun ⟨n, rest, hrest⟩ h => ?_
      exact costComponents_reads double _ _ h
    · cases kind with
      | comma | star | currency | string =>
        exact costComponents_reads double _ _ (htail (by decide))
      | hash =>
        refine (expression_reads (htail (by decide))).bind fun ⟨n, rest, hrest⟩ h => ?_
        exact costComponents_reads double _ _ h
      | date =>
        refine (dateValue_reads (mem_of_within h List.mem_cons_self)).bind fun d _ => ?_
        exact costComponents_reads double _ _ (htail (by decide))
      | _ => exact unexpected_reads h _
termination_by l'.size
-- The rest is that of an expression, of one token, or of an expression after one.
decreasing_by
  all_goals first
    | exact hrest
    | exact Nat.lt_succ_self _
    | exact Nat.lt_trans hrest (Nat.lt_succ_self _)

/-- The line without its next token, which is of a known kind. -/
theorem skip_within (h : l'.Within l) {kind : Token.Kind} (hkind : l'.nextKind? = some kind)
    (hne : kind ≠ .error) : (l'.withTokens l'.tokens.tail).Within l := by
  obtain ⟨indent, _ | ⟨t, ts⟩, ending⟩ := l'
  · cases hkind
  · obtain rfl : t.kind = kind := Option.some.inj hkind
    exact (within_tail rfl hne).trans h

/-- A line without a cost is left as it is. -/
theorem cost?_reads (h : l'.Within l) : l.Leaves l.Overflows l'.cost? := by
  unfold cost?
  split
  · rename_i hkind
    exact (costComponents_reads _ _ _ (skip_within h hkind (by decide))).bind fun _ h => .pure h
  · rename_i hkind
    exact (costComponents_reads _ _ _ (skip_within h hkind (by decide))).bind fun _ h => .pure h
  · exact .pure h

theorem price?_reads (h : l'.Within l) : l.Leaves l.Overflows l'.price? := by
  unfold price?
  split
  · rename_i hkind
    exact (amount_reads (skip_within h hkind (by decide))).bind fun _ h => .pure h
  · rename_i hkind
    exact (amount_reads (skip_within h hkind (by decide))).bind fun _ h => .pure h
  · exact .pure h

/-- The number and the currency may be missing, one or both; a rest of the line is left. -/
theorem units?_reads (h : l'.Within l) : l.Leaves l.Overflows l'.units? := by
  unfold units?
  refine .ite (fun _ => ?_) fun _ => .ite (fun _ => ?_) fun _ => .pure h
  · refine (expression_reads h).bind fun _ h => ?_
    exact .ite (fun _ => (currency_reads h).bind fun _ h => .pure h) fun _ => .pure h
  · exact (currency_reads h).bind fun _ h => .pure h

theorem postingFlag?_within (h : l'.Within l) : l'.postingFlag?.2.Within l := by
  unfold postingFlag?
  split
  · rename_i t ts htokens
    split
    · rename_i hflag
      refine (within_tail htokens ?_).trans h
      intro hkind
      simp [Token.isPostingFlag, hkind] at hflag
    · exact h
  · exact h

/-- A posting blames the line on which it stands. -/
theorem posting_reads (l : Line) :
    Reads (fun _ => True) l.Blames l.Overflows l.posting := by
  refine (account_reads (postingFlag?_within (.refl l))).bind fun _ h => ?_
  refine (units?_reads h).bind fun _ h => ?_
  refine (cost?_reads h).bind fun _ h => ?_
  refine (price?_reads h).bind fun _ h => ?_
  exact (finish_reads h).bind fun _ _ => .pure trivial

/-! ## Simple directives -/

theorem moreCurrencies_reads {E : ArithmeticError → Prop} (l' : Line) :
    l'.Within l → l.Leaves E l'.moreCurrencies := by
  rw [moreCurrencies]
  obtain ⟨indent, _ | ⟨t, ts⟩, ending⟩ := l' <;> intro h
  · exact .pure h
  · refine .ite (fun ht => ?_) fun _ => .pure h
    have h := (within_tail rfl (by simp [ht])).trans h
    obtain _ | ⟨c, ts⟩ := ts
    · exact unexpected_reads h _
    · refine .ite (fun hc => ?_) fun _ => unexpected_reads h _
      refine (moreCurrencies_reads _ ((within_tail rfl (by simp [hc])).trans h)).bind fun _ h => ?_
      exact .pure h
termination_by l'.size
decreasing_by exact Nat.lt_succ_of_lt (Nat.lt_succ_self _)

theorem currencies_reads {E : ArithmeticError → Prop} (h : l'.Within l) :
    l.Leaves E l'.currencies := by
  refine .ite (fun _ => ?_) fun _ => .pure h
  refine (currency_reads h).bind fun _ h => ?_
  exact (moreCurrencies_reads _ h).bind fun _ h => .pure h

theorem string?_reads {E : ArithmeticError → Prop} (h : l'.Within l) : l.Leaves E l'.string? :=
  .ite (fun _ => (string_reads h).bind fun _ h => .pure h) fun _ => .pure h

theorem tolerance?_reads (h : l'.Within l) : l.Leaves l.Overflows l'.tolerance? := by
  refine .ite (fun hkind => ?_) fun _ => .pure h
  exact (expression_reads (skip_within h hkind (by decide))).bind fun _ h => .pure h

/-- What a directive says after its keyword leaves a rest of its line. -/
theorem statement_reads (keyword : Keyword) {place : Span} (hplace : l.IsPlace place)
    (h : l'.Within l) : l.Leaves l.Overflows (l'.statement keyword place) := by
  cases keyword with
  | opening =>
    refine (account_reads h).bind fun _ h => ?_
    refine (currencies_reads h).bind fun _ h => ?_
    exact (string?_reads h).bind fun _ h => .pure h
  | closing => exact (account_reads h).bind fun _ h => .pure h
  | balance =>
    refine (account_reads h).bind fun _ h => ?_
    refine (expression_reads h).bind fun _ h => ?_
    refine (tolerance?_reads h).bind fun _ h => ?_
    exact (currency_reads h).bind fun _ h => .pure h
  | commodity => exact (currency_reads h).bind fun _ h => .pure h
  | pad => exact (account_reads h).bind fun _ h => (account_reads h).bind fun _ h => .pure h
  | price => exact (currency_reads h).bind fun _ h => (amount_reads h).bind fun _ h => .pure h
  | note | document =>
    exact (account_reads h).bind fun _ h => (string_reads h).bind fun _ h => .pure h
  | event | query =>
    exact (string_reads h).bind fun _ h => (string_reads h).bind fun _ h => .pure h
  | custom => exact (string_reads h).bind fun _ h => (values_reads _ h).bind fun _ h => .pure h
  | _ => exact .throw ⟨hplace, nofun⟩

end Line

/-! ## Drafts -/

namespace Draft

variable {l l' : Line} {d : Draft}

theorem kind_of_isTagOrLink {t : Token} (h : isTagOrLink t) : t.kind ≠ .error := by
  intro hkind
  simp [isTagOrLink, hkind] at h

/-- Tags and links are read off one by one, and none of them is an error. -/
theorem readTags_within (d : Draft) (h : l'.Within l) : (d.readTags l').2.Within l := by
  have hdrop : (l'.withTokens (l'.tokens.dropWhile isTagOrLink)).Within l' :=
    ⟨rfl, ⟨l'.tokens.takeWhile isTagOrLink, List.takeWhile_append_dropWhile.symm,
      fun t ht => kind_of_isTagOrLink (List.mem_takeWhile_imp ht)⟩, rfl⟩
  exact hdrop.trans h

/-- An indented line of a transaction, whatever it holds, is to blame for its own errors only. -/
theorem readLine_reads (d : Draft) (l : Line) :
    Reads (fun _ => True) l.Blames l.Overflows (d.readLine l) := by
  unfold readLine
  split
  · exact .pure trivial
  · refine .ite (fun _ => ?_) fun _ => .ite (fun _ => ?_) fun _ => .ite (fun _ => ?_) fun _ =>
      .ite (fun _ => ?_) fun _ => ?_
    · exact (Line.finish_reads (.refl l)).bind fun _ _ => .pure trivial
    · exact (Line.keyValue_reads (.refl l)).bind fun _ _ => .pure trivial
    · exact (Line.finish_reads (d.readTags_within (.refl l))).bind fun _ _ => .pure trivial
    · exact l.posting_reads.bind fun _ _ => .pure trivial
    · exact Line.unexpected_reads (.refl l) _

theorem readHead_reads (flag : Char) (h : l'.Within l) :
    Reads (fun _ => True) l.Blames l.Overflows (readHead flag l') := by
  unfold readHead
  have hstrings : ∀ t ∈ l'.tokens.takeWhile (·.kind = .string), t.kind = .string :=
    fun t ht => by simpa using List.mem_takeWhile_imp ht
  obtain ⟨more, hmore⟩ := List.takeWhile_prefix (l := l'.tokens) (·.kind = .string)
  generalize l'.tokens.takeWhile (·.kind = .string) = strings at hstrings hmore
  -- As many tokens as there are strings may be left out.
  have hdrop (n : Nat) (hn : n ≤ strings.length) :
      (l'.withTokens (l'.tokens.drop n)).Within l := by
    refine (l'.within_drop fun t ht => ?_).trans h
    rw [← hmore, List.take_append_of_le_length hn] at ht
    simp [hstrings t (List.mem_of_mem_take ht)]
  have htags (d : Draft) (l' : Line) (h : l'.Within l) :
      Reads (fun _ => True) l.Blames l.Overflows
        ((d.readTags l').2.finish >>= fun _ => pure (d.readTags l').1) :=
    (Line.finish_reads (d.readTags_within h)).bind fun _ _ => .pure trivial
  simp only
  split
  · exact htags _ _ (hdrop _ (Nat.le_refl _))
  · exact htags _ _ (hdrop _ (Nat.le_refl _))
  · exact htags _ _ (hdrop _ (Nat.le_refl _))
  · rename_i hnil hone htwo
    refine Line.unexpected_reads (hdrop 2 ?_) _
    obtain _ | ⟨a, _ | ⟨b, strings⟩⟩ := strings
    · exact absurd rfl hnil
    · exact absurd rfl (hone _)
    · simp

end Draft

/-! ## Whole directives -/

/-- A range starts on one of the lines. -/
def Line.SomeHolds (lines : List Line) (span : Span) : Prop := ∃ l ∈ lines, l.Holds span

/-- A range is that of a token or of the end of one of the lines. -/
def Line.SomePlace (lines : List Line) (span : Span) : Prop := ∃ l ∈ lines, l.IsPlace span

theorem Line.SomePlace.holds {lines : List Line} {span : Span} (h : Line.SomePlace lines span) :
    Line.SomeHolds lines span :=
  let ⟨l, hl, hspan⟩ := h
  ⟨l, hl, hspan.holds⟩

/-- An error is found on one of the lines. -/
def Line.SomeBlames (lines : List Line) (e : SyntaxError) : Prop := ∃ l ∈ lines, l.Blames e

/-- On one of the lines, an expression fails. -/
def Line.SomeOverflows (lines : List Line) (e : ArithmeticError) : Prop :=
  ∃ l ∈ lines, l.Overflows e

section Lines

variable {α : Type} {P : α → Prop} {r : Reading α} {l : Line} {lines : List Line}

/-- What is read from one of the lines. -/
theorem Reads.of_mem (h : Reads P l.Blames l.Overflows r) (hl : l ∈ lines) :
    Reads P (Line.SomeBlames lines) (Line.SomeOverflows lines) r :=
  h.mono (fun _ => id) (fun _ he => ⟨l, hl, he⟩) fun _ he => ⟨l, hl, he⟩

/-- An offset is the one given, or the end of one of the lines. -/
def Line.StopsAt (lines : List Line) (stop offset : Nat) : Prop :=
  offset = stop ∨ ∃ l ∈ lines, offset = l.ending.stop

/-- Where the last of some lines ends is the end of one of them, if there is any. -/
theorem Line.stopsAt_lastStop (stop : Nat) (lines : List Line) :
    Line.StopsAt lines stop (lastStop stop lines) := by
  unfold lastStop
  cases hlast : lines.getLast? with
  | none => exact .inl rfl
  | some l => exact .inr ⟨l, List.mem_of_getLast? hlast, rfl⟩

/-- Metadata is read from indented lines; those that it leaves are some of them. -/
theorem readMetadata_reads (m : Metadata) (stop : Nat) (below : List Line) (h : below ⊆ lines) :
    Reads (fun p => Line.StopsAt below stop p.2.1 ∧ p.2.2 ⊆ below) (Line.SomeBlames lines)
      (Line.SomeOverflows lines) (readMetadata m stop below) := by
  induction below generalizing m stop with
  | nil => exact .pure ⟨.inl rfl, List.Subset.refl _⟩
  | cons l below ih =>
    obtain ⟨hl, hbelow⟩ := List.cons_subset.1 h
    have hstop {offset : Nat} (h : Line.StopsAt below l.ending.stop offset) :
        Line.StopsAt (l :: below) stop offset := by
      rcases h with rfl | ⟨l', hl', rfl⟩
      · exact .inr ⟨l, List.mem_cons_self, rfl⟩
      · exact .inr ⟨l', List.mem_cons_of_mem l hl', rfl⟩
    have htail (m : Metadata) : Reads (fun p => Line.StopsAt (l :: below) stop p.2.1 ∧
        p.2.2 ⊆ l :: below) (Line.SomeBlames lines) (Line.SomeOverflows lines)
        (readMetadata m l.ending.stop below) :=
      (ih m l.ending.stop hbelow).mono
        (fun _ hp => ⟨hstop hp.1, List.subset_cons_of_subset l hp.2⟩) (fun _ => id) fun _ => id
    rw [readMetadata]
    refine .ite (fun _ => ?_) fun _ => .ite (fun _ => ?_) fun _ => ?_
    · exact ((Line.keyValue_reads (.refl l)).of_mem hl).bind fun _ _ => htail _
    · exact ((Line.finish_reads (.refl l)).of_mem hl).bind fun _ _ => htail _
    · exact .pure ⟨.inl rfl, List.Subset.refl _⟩

/-- A transaction blames its first line or one of the indented lines below it. -/
theorem Draft.read_reads (pushed : Pushed) (flag : Char) {rest : Line} {body : List Line}
    (hrest : rest.Within l) (hl : l ∈ lines) (hbody : body ⊆ lines) :
    Reads (fun _ => True) (Line.SomeBlames lines) (Line.SomeOverflows lines)
      (Draft.read pushed flag rest body) := by
  refine ((Draft.readHead_reads flag hrest).of_mem hl).bind fun d _ => ?_
  refine (Reads.foldlM (fun l hl d _ => (d.readLine_reads l).of_mem (hbody hl)) trivial).bind
    fun d _ => .pure trivial

/-- The directive starts at the token, and its metadata tells the line of it. -/
def Placed.StartsAt (d : Placed Directive) (t : Token) : Prop :=
  d.span.start = t.span.start ∧ ∃ m : Metadata, d.value.metadata = m.setLine t.line

/-- The directive starts at the token, and reaches to the end of the token or of a line of the
block. -/
structure Placed.Covers (d : Placed Directive) (b : Block) (t : Token) : Prop where
  starts : d.StartsAt t
  stops : ∃ l ∈ b.head :: b.body, d.span.stop = max l.ending.stop t.span.stop

/-- A directive starts at the first token of its block and records its line. -/
theorem Block.directive_reads (pushed : Pushed) {b : Block} {t : Token} {ts : List Token}
    (ht : b.head.tokens = t :: ts) (hl : b.head.Within l) (hlines : l ∈ lines)
    (hbody : b.body ⊆ lines) :
    Reads (fun p => p.1.Covers b t ∧ p.2 ⊆ b.body) (Line.SomeBlames lines)
      (Line.SomeOverflows lines) (b.directive pushed) := by
  have hhere : b.head.here = t.span := by simp [Line.here, ht]
  have hstart : Line.SomeBlames lines ⟨.missingDirective, b.head.here⟩ :=
    ⟨l, hlines, b.head.isPlace_here.of_within hl, nofun⟩
  unfold Block.directive
  simp only [ht, List.head?_cons, Option.elim_some]
  refine ((Line.date_reads hl).of_mem hlines).bind fun ⟨date, rest⟩ hrest => ?_
  have hplaced (date : Date) (m : Metadata) (x : Directive.Body) {stop : Nat}
      (hstop : Line.StopsAt b.body b.head.ending.stop stop) :
      Placed.Covers ⟨⟨date, pushed.complete m t.line, x⟩,
        ⟨b.head.here.start, max stop b.head.here.stop⟩⟩ b t := by
    rw [hhere]
    refine ⟨⟨rfl, _, rfl⟩, ?_⟩
    rcases hstop with rfl | ⟨l, hl, rfl⟩
    · exact ⟨b.head, List.mem_cons_self, rfl⟩
    · exact ⟨l, List.mem_cons_of_mem _ hl, rfl⟩
  obtain ⟨indent, _ | ⟨⟨kind, span, place, text⟩, us⟩, ending⟩ := rest
  · exact .throw hstart
  · have htail (hkind : kind ≠ .error) : (Line.mk indent us ending).Within l :=
      (Line.within_tail rfl hkind).trans hrest
    have hspan : Line.SomeBlames lines ⟨.missingDirective, span⟩ :=
      ⟨l, hlines, .of_mem (Line.mem_of_within hrest List.mem_cons_self) nofun⟩
    refine .ite (fun hflag => ?_) fun _ => .ite (fun _ => ?_) fun _ => ?_
    · have hkind : kind ≠ .error := by
        rintro rfl
        cases hflag
      refine (Draft.read_reads pushed _ (htail hkind) hlines hbody).bind fun d _ => ?_
      exact .pure ⟨hplaced _ _ _ (Line.stopsAt_lastStop _ _), List.nil_subset _⟩
    · refine (Draft.read_reads pushed _ hrest hlines hbody).bind fun d _ => ?_
      exact .pure ⟨hplaced _ _ _ (Line.stopsAt_lastStop _ _), List.nil_subset _⟩
    · cases kind with
      | keyword k =>
        have hrest := Line.statement_reads k (.of_mem (Line.mem_of_within hrest List.mem_cons_self))
          (htail (by simp))
        refine (hrest.of_mem hlines).bind fun ⟨x, rest⟩ hrest => ?_
        refine ((Line.finish_reads hrest).of_mem hlines).bind fun _ _ => ?_
        refine (readMetadata_reads {} b.head.ending.stop b.body hbody).bind fun p hp => ?_
        exact .pure ⟨hplaced _ _ _ hp.1, hp.2⟩
      | _ => exact .throw (by
          split
          · exact hstart
          · exact hspan)

end Lines

end DoubleEntry
