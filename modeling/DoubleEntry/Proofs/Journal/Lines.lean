import DoubleEntry.Loading.Source
import DoubleEntry.Proofs.Journal.ReadsBlock
import DoubleEntry.Proofs.Journal.TokenPlaces

/-!
# The lines of a text

Whatever a text says, and whatever is wrong with it, is on one of its lines.

* `Source.lineCount`: the number of lines; a line feed at the end of the text ends the last one.
* `Source.line_position`: the line of an offset, by the line feeds in front of it.
* `Token.line_of_mem_scan`: a token records the line of its offset.
* `Source.hasLine_of_holds`: what is at a place of a line of tokens is on a line of the text.
* `Journal.hasLine_of_mem_items`: so is every item of a journal.
-/

namespace DoubleEntry

namespace Source

variable {source : Source} {before after cs : List Char} {offset : Nat}

/-- The number of lines. What ends with a line feed has no other line after it. -/
def lineCount (source : Source) : Nat := source.lineStarts.countP (· < source.byteLength)

/-- Whether the text has a line of this number. -/
def HasLine (source : Source) (line : Nat) : Prop := 1 ≤ line ∧ line ≤ source.lineCount

instance (source : Source) (line : Nat) : Decidable (source.HasLine line) :=
  inferInstanceAs (Decidable (_ ∧ _))

/-- The offsets just past the line feeds among some characters. -/
def breaks (offset : Nat) (cs : List Char) : List Nat :=
  ((charsFrom offset cs).filter (·.2 = '\n')).map (·.1 + 1)

theorem lineStarts_eq (source : Source) :
    source.lineStarts = 0 :: breaks 0 source.text.toList := rfl

theorem charsFrom_append (offset : Nat) (cs more : List Char) :
    charsFrom offset (cs ++ more) =
      charsFrom offset cs ++ charsFrom (offset + Token.byteLength cs) more := by
  induction cs generalizing offset with
  | nil => rfl
  | cons c cs ih =>
    rw [List.cons_append, charsFrom, charsFrom, ih, Token.byteLength, List.cons_append,
      Nat.add_assoc]

theorem breaks_append (offset : Nat) (cs more : List Char) :
    breaks offset (cs ++ more) =
      breaks offset cs ++ breaks (offset + Token.byteLength cs) more := by
  rw [breaks, charsFrom_append, List.filter_append, List.map_append]
  rfl

theorem breaks_cons (offset : Nat) (c : Char) (cs : List Char) :
    breaks offset (c :: cs) =
      (if c = '\n' then [offset + 1] else []) ++ breaks (offset + c.utf8Size) cs := by
  rw [breaks, charsFrom, List.filter_cons]
  by_cases hc : c = '\n'
  · rw [if_pos (by simpa using hc), if_pos hc]
    rfl
  · rw [if_neg (by simpa using hc), if_neg hc]
    rfl

theorem length_breaks (offset : Nat) (cs : List Char) :
    (breaks offset cs).length = cs.count '\n' := by
  induction cs generalizing offset with
  | nil => rfl
  | cons c cs ih =>
    rw [breaks_cons, List.length_append, ih, List.count_cons]
    by_cases hc : c = '\n' <;> simp [hc, Nat.add_comm]

/-- A line feed takes one byte. -/
theorem mem_breaks {start : Nat} (h : start ∈ breaks offset cs) :
    offset < start ∧ start ≤ offset + Token.byteLength cs := by
  induction cs generalizing offset with
  | nil => cases h
  | cons c cs ih =>
    have hpos := c.utf8Size_pos
    rw [breaks_cons, List.mem_append] at h
    rw [Token.byteLength]
    rcases h with h | h
    · split at h
      · obtain rfl := List.mem_singleton.1 h
        omega
      · cases h
    · have := ih h
      omega

/-- The line feeds in front of an offset are those that end there or before. -/
theorem countP_breaks (before after : List Char) :
    (breaks 0 (before ++ after)).countP (· ≤ Token.byteLength before) = before.count '\n' := by
  have hbefore : (breaks 0 before).countP (· ≤ Token.byteLength before) =
      (breaks 0 before).length := by
    refine List.countP_eq_length.2 fun start hstart => ?_
    have := mem_breaks hstart
    simp only [decide_eq_true_eq]
    omega
  have hafter : (breaks (Token.byteLength before) after).countP
      (· ≤ Token.byteLength before) = 0 := by
    refine List.countP_eq_zero.2 fun start hstart => ?_
    have := mem_breaks hstart
    simp only [decide_eq_true_eq]
    omega
  rw [breaks_append, Nat.zero_add, List.countP_append, hbefore, hafter, length_breaks,
    Nat.add_zero]

/-- The line of an offset, by the line feeds in front of it. -/
theorem line_position (h : source.text.toList = before ++ after) :
    (source.position (Token.byteLength before)).1 = before.count '\n' + 1 := by
  simp only [position, positionIn, lineStarts_eq, h, ← List.countP_eq_length_filter]
  rw [List.countP_cons_of_pos (by simp), countP_breaks]

/-- An offset inside the text is on one of its lines. -/
theorem hasLine_position (h : offset < source.byteLength) :
    source.HasLine (source.position offset).1 := by
  simp only [HasLine, position, positionIn, ← List.countP_eq_length_filter, lineCount]
  constructor
  · rw [lineStarts_eq, List.countP_cons_of_pos (by simp)]
    exact Nat.succ_pos _
  · refine List.countP_mono_left fun start _ hstart => ?_
    simp only [decide_eq_true_eq] at hstart ⊢
    omega

end Source

/-! ## Tokens of a text -/

namespace Token

variable {source : Source} {t : Token}

/-- A token starts inside the text, on the line that it records. -/
theorem line_of_mem_scan (ht : t ∈ scan source.text) :
    t.span.start < source.byteLength ∧ t.line = (source.position t.span.start).1 := by
  obtain ⟨before, piece, after, fresh, htext, hne, hpiece, -⟩ := exists_piece ht
  have hstart : t.span.start = byteLength before := by
    rw [hpiece]
    exact Nat.zero_add _
  have hline : t.line = before.count '\n' + 1 := by
    rw [hpiece]
    exact Nat.add_comm _ _
  refine ⟨?_, by rw [hline, hstart, Source.line_position htext]⟩
  have hpos : byteLength piece ≠ 0 := fun h => hne (eq_nil_of_byteLength h)
  rw [Source.byteLength, htext, byteLength_append, byteLength_append, hstart]
  omega

/-- A token with a meaning also ends on one of the lines. -/
theorem hasLine_stop (ht : t ∈ scan source.text) (hnewline : t.kind ≠ .newline)
    (herror : t.kind ≠ .error) : source.HasLine (source.position t.span.stop).1 := by
  obtain ⟨before, piece, after, fresh, htext, hne, hpiece, hlast⟩ := exists_piece ht
  obtain ⟨init, c, rfl⟩ : ∃ init c, piece = init ++ [c] :=
    ⟨piece.dropLast, piece.getLast hne, (List.dropLast_append_getLast hne).symm⟩
  have hc : c ≠ '\n' := by simpa using hlast hnewline herror
  have hstop : t.span.stop = byteLength (before ++ (init ++ [c])) := by
    rw [hpiece, byteLength_append before]
    exact congrArg (· + _) (Nat.zero_add _)
  -- The line of the last character is that of the end.
  have hline : (source.position t.span.stop).1 =
      (source.position (byteLength (before ++ init))).1 := by
    have hfirst : source.text.toList = (before ++ init) ++ c :: after := by simp [htext]
    have hlast : source.text.toList = (before ++ (init ++ [c])) ++ after := by simp [htext]
    rw [hstop, Source.line_position hlast, Source.line_position hfirst]
    simp [hc]
  rw [hline]
  refine Source.hasLine_position ?_
  have hpos := c.utf8Size_pos
  rw [Source.byteLength, htext]
  simp only [byteLength_append, byteLength]
  omega

end Token

/-! ## Lines of tokens -/

/-- The tokens of a line, and where it ends: with a line break, or after its last token. -/
structure Line.Of (tokens : List Token) (l : Line) : Prop where
  mem : ∀ t ∈ l.indent.toList ++ l.tokens, t ∈ tokens
  ending : (∃ t ∈ tokens, l.ending = t.span) ∨
    ∃ t ∈ l.tokens, t.kind ≠ .newline ∧ l.ending = .empty t.span.stop

theorem Line.Of.cons {tokens : List Token} {l : Line} (h : l.Of tokens) (t : Token) :
    l.Of (t :: tokens) :=
  ⟨fun u hu => List.mem_cons_of_mem t (h.mem u hu),
    h.ending.imp_left fun ⟨u, hu, heq⟩ => ⟨u, List.mem_cons_of_mem t hu, heq⟩⟩

theorem Line.of_mem_ofTokens {tokens : List Token} {l : Line} (hl : l ∈ Line.ofTokens tokens) :
    l.Of tokens := by
  induction tokens generalizing l with
  | nil => cases hl
  | cons t tokens ih =>
    change l ∈ prepend t (ofTokens tokens) at hl
    generalize ofTokens tokens = lines at hl ih
    unfold prepend at hl
    split at hl
    · rcases List.mem_cons.1 hl with rfl | hl
      · exact ⟨by simp, .inl ⟨t, List.mem_cons_self, rfl⟩⟩
      · exact (ih hl).cons t
    · rename_i first rest _
      rcases List.mem_cons.1 hl with rfl | hl
      · have hfirst := (ih List.mem_cons_self).cons t
        refine ⟨?_, hfirst.ending⟩
        simp only [Option.toList_some, List.mem_append, List.mem_singleton]
        rintro u (rfl | hu)
        · exact List.mem_cons_self
        · exact hfirst.mem u (List.mem_append_right _ hu)
      · exact (ih (List.mem_cons_of_mem _ hl)).cons t
    · rename_i first rest _ _
      rcases List.mem_cons.1 hl with rfl | hl
      · have hfirst := (ih List.mem_cons_self).cons t
        refine ⟨?_, hfirst.ending.imp_right fun ⟨u, hu, h⟩ => ⟨u, List.mem_cons_of_mem t hu, h⟩⟩
        simp only [List.mem_append, List.mem_cons]
        rintro u (hu | rfl | hu)
        · exact List.mem_cons.1 (hfirst.mem u (List.mem_append_left _ hu))
        · exact .inl rfl
        · exact List.mem_cons.1 (hfirst.mem u (List.mem_append_right _ hu))
      · exact (ih (List.mem_cons_of_mem _ hl)).cons t
    · rename_i hnewline
      obtain rfl := List.mem_singleton.1 hl
      exact ⟨by simp, .inr ⟨t, List.mem_singleton_self t, hnewline, rfl⟩⟩

/-! ## Journals -/

/-- What is at a place of a line of tokens is on a line of the text. -/
theorem Source.hasLine_of_holds {source : Source} {lines : List Line} {span : Span}
    (hlines : lines = Line.ofTokens (Token.scan source.text))
    (h : Line.SomeHolds lines span) : source.HasLine (source.lineOf span) := by
  obtain ⟨l, hl, hspan⟩ := h
  rw [hlines] at hl
  obtain ⟨hmem, hending⟩ := Line.of_mem_ofTokens hl
  unfold Source.lineOf
  rcases hspan with ⟨t, ht, hstart⟩ | ⟨hgood, hstart⟩ <;> rw [hstart]
  · exact Source.hasLine_position (Token.line_of_mem_scan (hmem t ht)).1
  · rcases hending with ⟨t, ht, heq⟩ | ⟨t, ht, hnewline, heq⟩ <;> rw [heq]
    · exact Source.hasLine_position (Token.line_of_mem_scan ht).1
    · exact Token.hasLine_stop (hmem t (List.mem_append_right _ ht)) hnewline (hgood t ht)

/-- The place of an item. -/
def Item.span : Item → Span
  | .directive d => d.span
  | .option o => o.span
  | .inclusion i => i.span
  | .plugin p => p.span
  | .error e => e.span

namespace Journal

variable {source : Source} {j : Journal}

theorem placedOn_of_mem_items (h : (ofText source.text).value? = some j) {i : Item}
    (hi : i ∈ j.items) : i.PlacedOn (Line.ofTokens (Token.scan source.text)) :=
  (ofTokens_ends (Token.scan source.text)).of_value? h i hi

theorem on_of_mem_items (h : (ofText source.text).value? = some j) {i : Item} (hi : i ∈ j.items) :
    i.On (Line.ofTokens (Token.scan source.text)) :=
  (placedOn_of_mem_items h hi).on

/-- Every item of a journal is on one of the lines of its text. -/
theorem hasLine_of_mem_items (h : (ofText source.text).value? = some j) {i : Item}
    (hi : i ∈ j.items) : source.HasLine (source.lineOf i.span) := by
  have hon := on_of_mem_items h hi
  cases i with
  | directive d =>
    obtain ⟨l, hl, t, ht, hstart, -⟩ := hon
    exact Source.hasLine_of_holds rfl
      ⟨l, hl, .inl ⟨t, List.mem_append_right _ ht, hstart⟩⟩
  | option o | inclusion i | plugin p | error e => exact Source.hasLine_of_holds rfl hon

theorem mem_items_of_select {α : Type} {select : Item → Option α} {make : α → Item}
    (h : ∀ i a, select i = some a → i = make a) {a : α} (ha : a ∈ j.items.filterMap select) :
    make a ∈ j.items := by
  obtain ⟨i, hi, hselect⟩ := List.mem_filterMap.1 ha
  rwa [← h i a hselect]

theorem mem_items_of_directive {d : Placed Directive} (h : d ∈ j.directives) :
    .directive d ∈ j.items :=
  mem_items_of_select (fun i _ hi => by cases i <;> cases hi; rfl) h

theorem mem_items_of_option {o : OptionLine} (h : o ∈ j.options) : .option o ∈ j.items :=
  mem_items_of_select (fun i _ hi => by cases i <;> cases hi; rfl) h

theorem mem_items_of_inclusion {i : IncludeLine} (h : i ∈ j.inclusions) : .inclusion i ∈ j.items :=
  mem_items_of_select (fun i _ hi => by cases i <;> cases hi; rfl) h

theorem mem_items_of_error {e : SyntaxError} (h : e ∈ j.errors) : .error e ∈ j.items :=
  mem_items_of_select (fun i _ hi => by cases i <;> cases hi; rfl) h

/-- The metadata of a directive ends with the line on which it starts. -/
theorem metadata_of_mem_directives (h : (ofText source.text).value? = some j)
    {d : Placed Directive} (hd : d ∈ j.directives) :
    ∃ m : Metadata, d.value.metadata = m.setLine (source.lineOf d.span) := by
  obtain ⟨l, hl, t, ht, hstart, m, hm⟩ := on_of_mem_items h (mem_items_of_directive hd)
  have hscan := (Line.of_mem_ofTokens hl).mem t (List.mem_append_right _ ht)
  rw [(Token.line_of_mem_scan hscan).2, ← hstart] at hm
  exact ⟨m, hm⟩

end Journal

end DoubleEntry
