import DoubleEntry.Proofs.Printed.Words

/-!
# The lines of a printed transaction

The words of a transaction stand on a line of their own, those of its postings on lines with blanks
in front.

* `InLine`: words that stand on one line. `Posting.inLine_words`: those of a posting.
* `Line.ofTokens_of_words`: the lines that words stand on.
* `Block.ofLines_indented`: lines with blanks in front belong to the line above.
-/

namespace DoubleEntry

open Token

/-! ## Words of one line -/

/-- The words stand on one line, after the blanks in front. -/
def InLine (ws : List Word) : Prop := ∀ w ∈ ws, w.1 ≠ .newline ∧ w.1 ≠ .indent

/-- What stands on one line stays there when more of it is added. -/
theorem InLine.append {ws ws' : List Word} (h : InLine ws) (h' : InLine ws') :
    InLine (ws ++ ws') := List.forall_mem_append.2 ⟨h, h'⟩

theorem InLine.cons {kind : Token.Kind} {cs : List Char} {ws : List Word}
    (hkind : kind ≠ .newline ∧ kind ≠ .indent) (h : InLine ws) : InLine ((kind, cs) :: ws) :=
  List.forall_mem_cons.2 ⟨hkind, h⟩

/-- So does what may be missing. -/
theorem InLine.elim {α : Type} {words : α → List Word} (h : ∀ a, InLine (words a)) :
    ∀ o : Option α, InLine (o.elim [] words)
  | none => List.forall_mem_nil _
  | some a => h a

theorem InLine.map {α : Type} {kind : Token.Kind} (hkind : kind ≠ .newline ∧ kind ≠ .indent)
    (chars : α → List Char) (l : List α) : InLine (l.map fun a => (kind, chars a)) := by
  intro w hw
  obtain ⟨a, -, rfl⟩ := List.mem_map.1 hw
  exact hkind

/-- The commas between pieces stay on the line. -/
theorem InLine.intercalate {pieces : List (List Word)} (h : ∀ ws ∈ pieces, InLine ws) :
    InLine ([(.comma, [','])].intercalate pieces) := by
  induction pieces with
  | nil => exact List.forall_mem_nil _
  | cons ws pieces ih =>
    obtain ⟨hws, hpieces⟩ := List.forall_mem_cons.1 h
    cases pieces with
    | nil => simpa using hws
    | cons next pieces =>
      rw [List.intercalate_cons_cons]
      have hcomma : InLine [(.comma, [','])] := .cons (by decide) (List.forall_mem_nil _)
      exact (hws.append hcomma).append (ih hpieces)

theorem Amount.inLine_words (a : Amount) : InLine a.words := by simp [InLine, words]

theorem Units.inLine_words (u : Units) : InLine u.words := by
  cases u with
  | complete a => exact a.inLine_words
  | _ => simp [InLine, words]

theorem Price.inLine_words (q : Price) : InLine q.words := by
  cases q with
  | unit a => exact .cons (by decide) a.inLine_words
  | total a => exact .cons (by decide) a.inLine_words

theorem Cost.inLine_of_mem_parts {cost : Cost} {part : Part} (h : part ∈ cost.parts) :
    InLine part.words := by
  simp only [parts, List.mem_append, List.mem_map, Option.mem_toList] at h
  obtain h | ⟨d, -, rfl⟩ | ⟨s, -, rfl⟩ := h
  · unfold valuePart? at h
    split at h
    · obtain rfl := Option.some.inj h
      exact Amount.inLine_words _
    · obtain rfl := Option.some.inj h
      exact .cons (by decide) (Amount.inLine_words _)
    · obtain rfl := Option.some.inj h
      simp [InLine]
    · cases h
  · simp [InLine, datePart]
  · simp [InLine, labelPart]

/-- A cost is printed on one line, whichever of its parts there are. -/
theorem Cost.inLine_words (cost : Cost) : InLine cost.words := by
  have hparts : InLine ([(.comma, [','])].intercalate (cost.parts.map Part.words)) := by
    refine .intercalate fun ws hws => ?_
    obtain ⟨part, hpart, rfl⟩ := List.mem_map.1 hws
    exact inLine_of_mem_parts hpart
  exact (InLine.cons (by decide) hparts).append (.cons (by decide) (List.forall_mem_nil _))

/-- A posting is printed on one line. -/
theorem Posting.inLine_words (p : Posting) : InLine p.words := by
  have hflag : InLine (p.flag.toList.map fun flag => (flagKind flag, [flag])) := by
    intro w hw
    obtain ⟨flag, -, rfl⟩ := List.mem_map.1 hw
    exact flagKind_ne flag
  refine hflag.append (.cons (by decide) ?_)
  exact (InLine.elim Units.inLine_words p.units).append
    ((InLine.elim Cost.inLine_words p.cost).append (InLine.elim Price.inLine_words p.price))

namespace Line

variable {t : Token} {ts rest : List Token}

/-- A token within a line goes to the front of the first line. -/
theorem prepend_inLine (h : t.kind ≠ .newline ∧ t.kind ≠ .indent) (l : Line)
    (lines : List Line) : prepend t (l :: lines) = l.withTokens (t :: l.tokens) :: lines := by
  unfold prepend
  cases hkind : t.kind with
  | newline => exact absurd hkind h.1
  | indent => exact absurd hkind h.2
  | _ => rfl

/-- Tokens inside a line stay together. -/
theorem foldr_prepend_inLine (h : InLine (ts.map Token.word)) (l : Line) (lines : List Line) :
    ts.foldr prepend (l :: lines) = l.withTokens (ts ++ l.tokens) :: lines := by
  induction ts with
  | nil => rfl
  | cons t ts ih =>
    obtain ⟨ht, hts⟩ := List.forall_mem_cons.1 h
    rw [List.foldr_cons, ih hts, prepend_inLine ht]
    rfl

/-- Tokens without a line break are one line. -/
theorem ofTokens_last (h : InLine (ts.map Token.word)) (hne : ts ≠ []) :
    ∃ ending, ofTokens ts = [⟨none, ts, ending⟩] := by
  obtain ⟨init, t, rfl⟩ := (List.eq_nil_or_concat' ts).resolve_left hne
  rw [List.map_append] at h
  obtain ⟨hinit, ht⟩ := List.forall_mem_append.1 h
  refine ⟨.empty t.span.stop, ?_⟩
  rw [ofTokens, List.foldr_append, List.foldr_cons, List.foldr_nil,
    prepend_nil (ht _ List.mem_cons_self).1, foldr_prepend_inLine hinit]
  rfl

/-- A line break ends a line, and the next one starts behind it. -/
theorem ofTokens_newline (h : InLine (ts.map Token.word)) (ht : t.kind = .newline)
    (rest : List Token) : ofTokens (ts ++ t :: rest) = ⟨none, ts, t.span⟩ :: ofTokens rest := by
  have hprepend (lines : List Line) : prepend t lines = ⟨none, [], t.span⟩ :: lines := by
    simp only [prepend, ht]
  rw [ofTokens, List.foldr_append, List.foldr_cons, hprepend, foldr_prepend_inLine h, withTokens,
    List.append_nil]
  rfl

/-- The words of several lines, all but the first with blanks in front. -/
theorem ofTokens_of_words {first : List Word} {others : List (List Word)}
    (hfirst : first ≠ [] ∧ InLine first) (hothers : ∀ ws ∈ others, ws ≠ [] ∧ InLine ws)
    {tokens : List Token} (h : tokens.map Token.word = first ++
      others.flatMap fun ws => (.newline, ['\n']) :: (.indent, [' ', ' ']) :: ws) :
    ∃ l lines, ofTokens tokens = l :: lines ∧ l.indent = none ∧ l.words = first ∧
      List.Forall₂ (fun l ws => l.indent.isSome ∧ l.words = ws) lines others := by
  induction others generalizing first tokens with
  | nil =>
    rw [List.flatMap_nil, List.append_nil] at h
    have hne : tokens ≠ [] := by
      rintro rfl
      exact hfirst.1 h.symm
    obtain ⟨ending, hlast⟩ := ofTokens_last (h ▸ hfirst.2) hne
    exact ⟨_, [], hlast, rfl, h, .nil⟩
  | cons ws others ih =>
    obtain ⟨hws, hothers⟩ := List.forall_mem_cons.1 hothers
    rw [List.flatMap_cons, List.cons_append, List.cons_append] at h
    obtain ⟨ts, rest, rfl, hts, hrest⟩ := List.map_eq_append_iff.1 h
    obtain ⟨newline, rest, rfl, hnewline, hrest⟩ := List.map_eq_cons_iff.1 hrest
    obtain ⟨indent, rest, rfl, hindent, hrest⟩ := List.map_eq_cons_iff.1 hrest
    obtain ⟨l, lines, hlines, hnone, hl, hall⟩ := ih hws hothers hrest
    have hprepend : prepend indent (l :: lines) = { l with indent := some indent } :: lines := by
      have hkind : indent.kind = .indent := congrArg Prod.fst hindent
      simp only [prepend, hkind]
    refine ⟨⟨none, ts, newline.span⟩, { l with indent := some indent } :: lines, ?_, rfl, hts,
      .cons ⟨rfl, hl⟩ hall⟩
    rw [ofTokens_newline (hts ▸ hfirst.2) (congrArg Prod.fst hnewline), ofTokens, List.foldr_cons,
      ← ofTokens, hlines, hprepend]

end Line

theorem Transaction.inLine_headWords (t : Transaction) : InLine t.headWords :=
  (InLine.map (by decide) quoted _).append
    ((InLine.map (by decide) _ t.tags).append (InLine.map (by decide) _ t.links))

/-- A line and the lines with blanks in front below it. -/
theorem Block.ofLines_indented {l : Line} {lines : List Line} (hl : l.indent = none)
    (hlines : ∀ l ∈ lines, l.indent.isSome) : ofLines (l :: lines) = ([], [⟨l, lines⟩]) := by
  have hbody : ofLines lines = (lines, []) := by
    induction lines with
    | nil => rfl
    | cons l lines ih =>
      obtain ⟨hl, hlines⟩ := List.forall_mem_cons.1 hlines
      rw [ofLines, ih hlines]
      exact if_pos hl
  rw [ofLines, hbody, hl]
  rfl

end DoubleEntry
