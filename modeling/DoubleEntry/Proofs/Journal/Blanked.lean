import DoubleEntry.Proofs.Journal.Excerpt

/-!
# Blank lines in place of a block

If the text of a block is left blank, the other blocks stay what they are. Those after it move back
by what the block takes more than its line feeds.

* `blanked`: blank lines in place of a text; `Block.Excerpt.blanked`: a text with blank lines in
  place of a block.
* `Relocation.blanked`: where the text after the block goes.
* `Block.items_blank`: blank lines say nothing.
* `Block.Excerpt.ofLines_eq`: the blocks of a text with blank lines in place of one of them.
-/

namespace DoubleEntry

variable {r : Relocation}

/-- Blank lines in place of a text: its line feeds alone. -/
def blanked (text : String) : String := String.ofList (text.toList.filter (· = '\n'))

/-! ## Relocations -/

@[ext] theorem Relocation.ext {r r' : Relocation} (hoffset : ∀ n, r.offset n = r'.offset n)
    (hline : ∀ n, r.line n = r'.line n) : r = r' := by
  obtain ⟨offset, line, monotone⟩ := r
  obtain ⟨offset', line', monotone'⟩ := r'
  obtain rfl : offset = offset' := funext hoffset
  obtain rfl : line = line' := funext hline
  rfl

/-- One relocation after the other. -/
def Relocation.comp (r r' : Relocation) : Relocation where
  offset offset := r.offset (r'.offset offset)
  line line := r.line (r'.line line)
  monotone := r.monotone.comp r'.monotone

theorem Line.relocated_comp (r r' : Relocation) (l : Line) :
    (l.relocated r').relocated r = l.relocated (r.comp r') := by
  obtain ⟨indent, tokens, ending⟩ := l
  cases indent <;> simp [relocated, Token.relocated, Span.relocated, Relocation.comp]

/-- Where the text after a line goes when blank lines take the place of the line. -/
def Relocation.blanked (before entry : String) : Relocation where
  offset offset :=
    let start := Token.byteLength before.toList
    let size := Token.byteLength entry.toList
    if offset < start + size then min offset start
    else offset - size + Token.byteLength (DoubleEntry.blanked entry).toList
  line := id
  monotone offset offset' h := by
    simp only
    split <;> split <;> omega

theorem Relocation.keepsLines_blanked (before entry : String) : (blanked before entry).KeepsLines :=
  fun _ => rfl

/-- The text in front of the line stays where it is. -/
theorem Relocation.offset_blanked {before : String} (entry : String) {offset : Nat}
    (h : offset ≤ Token.byteLength before.toList) :
    (blanked before entry).offset offset = offset := by
  have hsize : Token.byteLength entry.toList = 0 →
      Token.byteLength (DoubleEntry.blanked entry).toList = 0 := by
    intro hzero
    rw [DoubleEntry.blanked, Token.eq_nil_of_byteLength hzero]
    rfl
  simp only [blanked]
  split
  · exact Nat.min_eq_left h
  · have hzero := hsize (by omega)
    omega

/-- The text after the line moves back by what the line takes more than its line feeds. -/
theorem Relocation.blanked_comp (before entry : String) :
    (blanked before entry).comp
        ((Motion.past before).relocation.comp (Motion.past entry).relocation) =
      (Motion.past before).relocation.comp
        (Motion.past (DoubleEntry.blanked entry)).relocation := by
  have hcount : (DoubleEntry.blanked entry).toList.count '\n' = entry.toList.count '\n' := by
    rw [DoubleEntry.blanked, String.toList_ofList]
    exact List.count_filter (by simp)
  refine Relocation.ext (fun offset => ?_) fun line => ?_
  · simp only [comp, blanked, Motion.relocation, Motion.past]
    split <;> omega
  · simp only [comp, blanked, Motion.relocation, Motion.past, hcount, id]

/-! ## Lines of a text -/

namespace Token

variable {source : String} {t : Token}

/-- A line feed at the front is a line break. -/
theorem scanFrom_lineFeed (pos : Cursor) (cs : List Char) :
    scanFrom pos ('\n' :: cs) =
      pos.token .newline ['\n'] :: scanFrom (pos.advance ['\n'] true) cs := by
  have hlexeme : lexeme '\n' cs = (.newline, 0) := by simp [lexeme, isDecimalDigit_lineFeed]
  have hdrop : ('\n' :: cs).dropWhile isBlank = '\n' :: cs := rfl
  have htake : ('\n' :: cs).takeWhile isBlank = [] := rfl
  rw [scanFrom_eq hdrop hlexeme, htake]
  simp [lead, Cursor.next, Cursor.advance, Cursor.token, byteLength]

end Token

namespace Line

variable {source more : String} {l : Line}

/-- The line has nothing on it. -/
def Blank (l : Line) : Prop := l.indent = none ∧ l.tokens = []

theorem Blank.relocated (h : l.Blank) (r : Relocation) : (l.relocated r).Blank := by
  simp [Blank, Line.relocated, h.1, h.2]

/-- Line feeds at the front are blank lines. -/
theorem ofTokens_lineFeeds (pos : Token.Cursor) (hfresh : pos.fresh = true) (n : Nat)
    (cs : List Char) :
    ∃ blanks, (∀ l ∈ blanks, l.Blank) ∧
      ofTokens (Token.scanFrom pos (List.replicate n '\n' ++ cs)) =
        blanks ++ ofTokens (Token.scanFrom (pos.advance (List.replicate n '\n') true) cs) := by
  induction n generalizing pos with
  | zero =>
    have hpos : pos.advance [] true = pos := by
      obtain ⟨offset, line, fresh⟩ := pos
      obtain rfl : fresh = true := hfresh
      rfl
    exact ⟨[], by simp, by rw [List.replicate_zero, hpos]; rfl⟩
  | succ n ih =>
    obtain ⟨blanks, hblanks, hlines⟩ := ih (pos.advance ['\n'] true) rfl
    refine ⟨⟨none, [], (pos.token .newline ['\n']).span⟩ :: blanks, ?_, ?_⟩
    · exact List.forall_mem_cons.2 ⟨⟨rfl, rfl⟩, hblanks⟩
    · rw [Token.advance_advance, List.singleton_append] at hlines
      rw [List.replicate_succ, List.cons_append, Token.scanFrom_lineFeed, List.cons_append,
        ← hlines]
      rfl

theorem ofTokens_scan_blanked (entry after : String) :
    ∃ blanks, (∀ l ∈ blanks, l.Blank) ∧
      ofTokens (Token.scan (blanked entry ++ after)) =
        blanks ++ (ofTokens (Token.scan after)).map
          (relocated (Motion.past (blanked entry)).relocation) := by
  have hfeeds : (blanked entry).toList = List.replicate (entry.toList.count '\n') '\n' := by
    rw [blanked, String.toList_ofList, List.filter_eq]
  obtain ⟨blanks, hblanks, hlines⟩ :=
    ofTokens_lineFeeds {} rfl (entry.toList.count '\n') after.toList
  refine ⟨blanks, hblanks, ?_⟩
  rw [← hfeeds] at hlines
  rw [Token.scan, String.toList_append, hlines, Token.advance_eq_moved, Token.scanFrom_moved,
    Token.moved_eq, ofTokens_relocated]
  rfl

/-- What comes after the blank lines is what came after the others, at its new place. -/
theorem map_relocated_blanked (before entry : String) (lines : List Line) :
    (lines.map (relocated (Motion.past (blanked entry)).relocation)).map
        (relocated (Motion.past before).relocation) =
      ((lines.map (relocated (Motion.past entry).relocation)).map
        (relocated (Motion.past before).relocation)).map (relocated (.blanked before entry)) := by
  simp only [List.map_map]
  refine List.map_congr_left fun l _ => ?_
  simp only [Function.comp_apply, relocated_comp]
  rw [← Relocation.blanked_comp]

/-- A line after those that are left out stays as far in as it is. -/
theorem keepsIndent_blanked (before entry : String) (l : Line) :
    ((l.relocated (Motion.past entry).relocation).relocated
      (Motion.past before).relocation).KeepsIndent (.blanked before entry) := by
  have hmotion (l : Line) (m : Motion) : (l.relocated m.relocation).indentWidth = l.indentWidth :=
    l.keepsIndent_relocation m
  rw [KeepsIndent, hmotion, hmotion, relocated_comp (Motion.past before).relocation,
    relocated_comp, Relocation.blanked_comp, ← relocated_comp, hmotion, hmotion]

theorem Unindented.append {lines more : List Line} (h : Unindented lines)
    (hmore : Unindented more) : Unindented (lines ++ more) := by
  cases lines with
  | nil => exact hmore
  | cons l lines => exact h

theorem unindented_of_blank {lines : List Line} (h : ∀ l ∈ lines, l.Blank) : Unindented lines :=
  fun l hl => (h l (List.mem_of_mem_head? hl)).1

end Line

namespace Block

variable {pushed : Pushed}

/-- Each blank line is a block of its own. -/
theorem ofLines_blank {lines : List Line} (h : ∀ l ∈ lines, l.Blank) :
    ofLines lines = ([], lines.map fun l => ⟨l, []⟩) := by
  induction lines with
  | nil => rfl
  | cons l lines ih =>
    obtain ⟨hl, hlines⟩ := List.forall_mem_cons.1 h
    rw [ofLines, ih hlines]
    simp [hl.1]

/-- Blank lines say nothing. -/
theorem items_blank {lines : List Line} (h : ∀ l ∈ lines, l.Blank) (more : List Block) :
    items pushed ((lines.map fun l => ⟨l, []⟩) ++ more) = items pushed more := by
  induction lines with
  | nil => rfl
  | cons l lines ih =>
    obtain ⟨hl, hlines⟩ := List.forall_mem_cons.1 h
    have hstep : step pushed ⟨l, []⟩ = .exact (.skip pushed []) := by
      unfold step
      simp only [hl.2, List.dropWhile_nil]
      rfl
    rw [List.map_cons, List.cons_append, items, hstep, Checked.exact_bind]
    change (items pushed _ >>= fun said => pure ([] ++ [] ++ said)) = _
    simp only [List.nil_append, bind_pure]
    exact ih hlines

end Block

/-! ## Texts -/

namespace Block.Excerpt

variable {source : String} {first : List Block} {b : Block}

/-- The text with blank lines in place of the block. -/
def blanked (x : Excerpt source first b) : String :=
  x.before ++ (DoubleEntry.blanked x.entry ++ x.after)

/-- Where the text after the block goes. -/
def relocation (x : Excerpt source first b) : Relocation := .blanked x.before x.entry

/-- The blocks of the text, with the block and with blank lines in its place. -/
theorem ofLines_eq (x : Excerpt source first b) :
    ∃ (blanks : List Line) (more : List Block), (∀ l ∈ blanks, l.Blank) ∧
      (∀ b ∈ more, ∀ l ∈ b.body, l.KeepsIndent x.relocation) ∧
      ofLines (Line.ofTokens (Token.scan source)) =
        ((ofLines (Line.ofTokens (Token.scan x.before))).1, first ++ b :: more) ∧
      ofLines (Line.ofTokens (Token.scan x.blanked)) =
        ((ofLines (Line.ofTokens (Token.scan x.before))).1,
          first ++ ((blanks.map fun l => ⟨l, []⟩) ++ more.map (Block.relocated x.relocation))) := by
  obtain ⟨before, entry, after, rfl, hwhole, rfl, alone, ⟨halone, rfl⟩, hends, hunindented⟩ := x
  obtain ⟨blanks, hblanks, hblanked⟩ := Line.ofTokens_scan_blanked entry after
  have hentry := Line.ofTokens_scan_of_whole (.inr hends)
  have hbefore (more : String) :
      Line.ofTokens (Token.scan (before ++ more)) = _ :=
    Line.ofTokens_scan_of_whole (hwhole.imp_right .inl)
  let place := (Motion.past before).relocation
  let rest := ((Line.ofTokens (Token.scan after)).map
    (Line.relocated (Motion.past entry).relocation)).map (Line.relocated place)
  have hrest : Line.Unindented rest := (hunindented.relocated _).relocated _
  have hplaced : ∀ l ∈ blanks.map (Line.relocated place), l.Blank :=
    List.forall_mem_map.2 fun l hl => (hblanks l hl).relocated place
  have hfirst : Line.Unindented ((Line.ofTokens (Token.scan entry)).map (Line.relocated place)) :=
    (unindented_of_ofLines (by rw [halone])).relocated _
  have hblock : ofLines ((Line.ofTokens (Token.scan entry)).map (Line.relocated place)) =
      ([], [alone.relocated place]) := by
    rw [ofLines_relocated, halone]
    rfl
  refine ⟨blanks.map (Line.relocated place), (ofLines rest).2, hplaced, ?_, ?_, ?_⟩
  · intro b hb l hl
    obtain ⟨l', hl', rfl⟩ := List.mem_map.1 (mem_of_mem_lines hb (List.mem_cons_of_mem _ hl))
    obtain ⟨l, -, rfl⟩ := List.mem_map.1 hl'
    exact l.keepsIndent_blanked before entry
  · rw [hbefore, hentry, List.map_append, ofLines_append _ (hfirst.append hrest),
      ofLines_append _ hrest, hblock]
    rfl
  · have hafter := hrest.relocated (.blanked before entry)
    rw [blanked, hbefore, hblanked, List.map_append, Line.map_relocated_blanked before entry,
      ofLines_append _ ((Line.unindented_of_blank hplaced).append hafter),
      ofLines_append _ hafter, ofLines_blank hplaced, ofLines_relocated]
    rfl

/-- The lines in front of the block stay where they are. -/
theorem relocated_eq_self (x : Excerpt source first b) {b' : Block} (hb : b' ∈ first) {l : Line}
    (hl : l ∈ b'.lines) : l.relocated x.relocation = l := by
  rw [← x.blocks] at hb
  exact Line.relocated_eq_self (Relocation.keepsLines_blanked x.before x.entry)
    (mem_of_mem_lines hb hl) fun _ hle => Relocation.offset_blanked x.entry hle

theorem map_relocated (x : Excerpt source first b) :
    first.map (Block.relocated x.relocation) = first := by
  refine (List.map_congr_left fun b' hb => ?_).trans (List.map_id _)
  have hbody : b'.body.map (Line.relocated x.relocation) = b'.body.map id :=
    List.map_congr_left fun l hl => x.relocated_eq_self hb (List.mem_cons_of_mem _ hl)
  rw [Block.relocated, x.relocated_eq_self hb List.mem_cons_self, hbody, List.map_id]
  rfl

end Block.Excerpt

end DoubleEntry
