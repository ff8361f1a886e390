import DoubleEntry.Proofs.Journal.TokenPlaces

/-!
# Tokens and the gaps between them

Scanning loses nothing, whatever the text is. It is cut into tokens, each with at least one
character, and what stands between them are blanks. The blanks in front of the first token of a line
become a token of their own, which the reader needs to tell an indented line.

* `Span.Cuts`: a range of bytes is that of a piece of a text.
* `Token.Tiles`: a text is made up of tokens, one after the other, and of blanks between them.
* `Token.scanFrom_tiles`, `Token.pairwise_scanFrom`: so is any text of its tokens, which stand one
  after the other.
* `Token.openLine?`: where the line starts of which no token has been found.
* `Token.afterIndent_iff`, `Token.indent_spans`: in front of which tokens an indent is found, and
  what it is.
* `Token.scan_tiles`: all this of the tokens of a text.
-/

namespace DoubleEntry

/-- The range is that of a piece of a text, between what stands in front of it and after it. So it
begins and ends where characters do. -/
structure Span.Cuts (s : Span) (cs before piece after : List Char) : Prop where
  text : cs = before ++ (piece ++ after)
  span : s = ⟨Token.byteLength before, Token.byteLength before + Token.byteLength piece⟩

namespace Token

variable {pos : Cursor} {cs before after : List Char} {c : Char} {t u : Token}
  {ts seen first more : List Token} {offset byte : Nat}

theorem byteLength_pos (h : cs ≠ []) : 0 < byteLength cs :=
  Nat.pos_of_ne_zero fun h' => h (eq_nil_of_byteLength h')

/-- A character of two texts stands in the first or in the second. -/
theorem exists_place {cs more : List Char} (h : cs ++ more = before ++ c :: after) :
    (∃ tail, cs = before ++ c :: tail) ∨
      ∃ before', before = cs ++ before' ∧ more = before' ++ c :: after := by
  obtain ⟨tail, hbefore, hmore⟩ | ⟨tail, hcs, hmore⟩ := List.append_eq_append_iff.1 h
  · exact .inr ⟨tail, hbefore, hmore⟩
  · cases tail with
    | nil => exact .inr ⟨[], by simpa using hcs.symm, hmore.symm⟩
    | cons d tail =>
      obtain ⟨rfl, -⟩ := List.cons.inj hmore
      exact .inl ⟨tail, hcs⟩

/-! ## Tilings -/

/-- A text that starts at an offset is made up of tokens and of blanks: blanks and nothing else
stand in front of each token and after the last one. A token has the range and the text of its own
characters, of which there is at least one. -/
inductive Tiles : Nat → List Char → List Token → Prop
  | blanks {offset : Nat} {gap : List Char} (hgap : ∀ c ∈ gap, isBlank c) : Tiles offset gap []
  | token {offset : Nat} {gap piece rest : List Char} {t : Token} {ts : List Token}
    (hgap : ∀ c ∈ gap, isBlank c) (hpiece : piece ≠ [])
    (hspan : t.span = ⟨offset + byteLength gap, offset + byteLength gap + byteLength piece⟩)
    (htext : t.text = String.ofList piece) (hrest : Tiles t.span.stop rest ts) :
    Tiles offset (gap ++ (piece ++ rest)) (t :: ts)

namespace Tiles

/-- A byte that is in none of the tokens is a blank. -/
theorem blank_of_uncovered (h : Tiles offset cs ts) (hcs : cs = before ++ c :: after)
    (hbyte : offset + byteLength before ≤ byte ∧ byte < offset + byteLength before + c.utf8Size)
    (huncovered : ∀ t ∈ ts, ¬(t.span.start ≤ byte ∧ byte < t.span.stop)) : isBlank c := by
  induction h generalizing before with
  | blanks hgap => exact hgap c (by simp [hcs])
  | @token offset gap piece rest t ts hgap hpiece hspan htext hrest ih =>
    have ht := huncovered t List.mem_cons_self
    simp only [hspan] at ht ih
    -- The character stands in the gap, in the token or after it.
    obtain ⟨tail, rfl⟩ | ⟨before, rfl, htoken⟩ := exists_place hcs
    · exact hgap c (by simp)
    obtain ⟨tail, rfl⟩ | ⟨before, rfl, hafter⟩ := exists_place htoken
    · simp only [byteLength_append, byteLength] at hbyte ht
      omega
    · refine ih hafter ?_ fun u hu => huncovered u (List.mem_cons_of_mem t hu)
      simp only [byteLength_append] at hbyte
      omega

end Tiles

/-- The tokens other than the blanks at the start of lines. -/
def visible (tokens : List Token) : List Token := tokens.filter (·.kind ≠ .indent)

theorem visible_append (ts us : List Token) : visible (ts ++ us) = visible ts ++ visible us :=
  List.filter_append ..

theorem visible_lead (pos : Cursor) (blanks : List Char) (kind : Kind) :
    visible (lead pos blanks kind) = [] := by
  refine List.filter_eq_nil_iff.2 fun t ht => ?_
  obtain ⟨-, rfl⟩ := mem_lead.1 ht
  simp [Cursor.token]

theorem visible_cons (h : t.kind ≠ .indent) (ts : List Token) :
    visible (t :: ts) = t :: visible ts :=
  List.filter_cons_of_pos (by simpa using h)

/-- A text is made up of its tokens and of blanks. -/
theorem scanFrom_tiles (pos : Cursor) (cs : List Char) :
    Tiles pos.offset cs (visible (scanFrom pos cs)) := by
  induction pos, cs using scanFrom.induct with
  | case1 pos cs h =>
    rw [scanFrom_eq_nil h]
    exact .blanks fun c hc => List.dropWhile_eq_nil_iff.1 h c hc
  | case2 pos cs blanks after c rest h kind n hlexeme piece ih =>
    have hcs : cs = blanks ++ (piece ++ rest.drop n) := eq_append_of_dropWhile h
    have hkind : (after.token kind piece).kind ≠ .indent := lexeme_ne_indent hlexeme
    have hblank : ∀ c ∈ blanks, isBlank c := fun c hc => List.mem_takeWhile_imp hc
    have htiles := @Tiles.token pos.offset _ _ _ (after.token kind piece) _ hblank
      (List.cons_ne_nil _ _) rfl rfl ih
    rw [← hcs] at htiles
    rw [scanFrom_eq h hlexeme, visible_append, visible_lead, List.nil_append, visible_cons hkind]
    exact htiles

theorem le_start (h : t ∈ scanFrom pos cs) : pos.offset ≤ t.span.start := by
  obtain ⟨before, piece, after, fresh, -, -, heq, -⟩ := exists_piece h
  rw [heq]
  exact Nat.le_add_right _ _

/-- The tokens of a scan stand one after the other. -/
theorem pairwise_scanFrom (pos : Cursor) (cs : List Char) :
    (scanFrom pos cs).Pairwise fun t u => t.span.stop ≤ u.span.start := by
  induction pos, cs using scanFrom.induct with
  | case1 pos cs h =>
    rw [scanFrom_eq_nil h]
    exact .nil
  | case2 pos cs blanks after c rest h kind n hlexeme piece ih =>
    rw [scanFrom_eq h hlexeme]
    have hlead : (lead pos blanks kind).Pairwise fun t u => t.span.stop ≤ u.span.start := by
      unfold lead
      split <;> simp
    have hlater (u : Token) (hu : u ∈ scanFrom (pos.next blanks piece kind) (rest.drop n)) :
        after.offset + byteLength piece ≤ u.span.start := le_start hu
    refine List.pairwise_append.2 ⟨hlead, .cons hlater ih, fun i hi u hu => ?_⟩
    obtain ⟨-, rfl⟩ := mem_lead.1 hi
    rcases List.mem_cons.1 hu with rfl | hu
    · exact Nat.le_refl _
    · exact Nat.le_trans (Nat.le_add_right _ _) (hlater u hu)

/-! ## Indents -/

/-- Whether the last of the tokens is an indent. -/
def AfterIndent (tokens : List Token) : Prop := ∃ t ∈ tokens.getLast?, t.kind = .indent

/-- Where the line starts of which no token has been found: at the start of the text, or where the
last token ends if it is a line break. An indent does not count. -/
def openLine? (tokens : List Token) : Option Nat :=
  match (visible tokens).getLast? with
  | none => some 0
  | some t => if t.kind = .newline then some t.span.stop else none

/-- Some tokens have been found in front of a place: a line is open if the place is fresh, and the
last token is no indent. -/
structure SeenBefore (seen : List Token) (pos : Cursor) : Prop where
  openLine : openLine? seen = if pos.fresh then some pos.offset else none
  afterIndent : ¬AfterIndent seen

theorem seenBefore_nil : SeenBefore [] {} := ⟨rfl, by simp [AfterIndent]⟩

theorem openLine?_append_lead (seen : List Token) (pos : Cursor) (blanks : List Char)
    (kind : Kind) : openLine? (seen ++ lead pos blanks kind) = openLine? seen := by
  rw [openLine?, visible_append, visible_lead, List.append_nil]
  rfl

theorem SeenBefore.step {blanks piece : List Char} {kind : Kind} (hkind : kind ≠ .indent) :
    SeenBefore (seen ++ lead pos blanks kind ++ [(pos.advance blanks pos.fresh).token kind piece])
      (pos.next blanks piece kind) := by
  constructor
  · rw [openLine?, visible_append, visible_cons hkind, List.getLast?_append_cons]
    change (if kind = .newline then _ else _) = if decide (kind = .newline) then _ else _
    simp only [decide_eq_true_eq]
    rfl
  · simpa [AfterIndent, Cursor.token] using hkind

/-- Blanks stand in front of the first token as an indent if the line is open and the token is no
line break. -/
theorem afterIndent_lead_iff {blanks : List Char} {kind : Kind} (hseen : SeenBefore seen pos) :
    AfterIndent (seen ++ lead pos blanks kind) ↔ kind ≠ .newline ∧
      ∃ start, openLine? seen = some start ∧ start ≠ pos.offset + byteLength blanks := by
  have hblanks : pos.offset ≠ pos.offset + byteLength blanks ↔ blanks ≠ [] := by
    refine ⟨fun h => ?_, fun h => ?_⟩
    · rintro rfl
      exact h rfl
    · have := byteLength_pos h
      omega
  rw [hseen.openLine]
  unfold lead
  cases hfresh : pos.fresh with
  | false => simpa using hseen.afterIndent
  | true =>
    split
    · next h =>
      refine iff_of_true (by simp [AfterIndent, Cursor.token]) ⟨h.2.2, _, rfl, hblanks.2 h.2.1⟩
    · next h =>
      rw [List.append_nil]
      refine iff_of_false hseen.afterIndent ?_
      rintro ⟨hkind, _, ⟨⟩, hne⟩
      exact h ⟨rfl, hblanks.1 hne, hkind⟩

theorem append_step (seen blanks first : List Token) (t : Token) :
    seen ++ (blanks ++ t :: first) = seen ++ blanks ++ [t] ++ first := by simp

/-- An indent is found in front of the first token of a line, unless that is a line break or begins
at the start of the line. -/
theorem afterIndent_iff (pos : Cursor) (cs : List Char) (ht : t.kind ≠ .indent) :
    ∀ seen first, SeenBefore seen pos → scanFrom pos cs = first ++ t :: more →
      (AfterIndent (seen ++ first) ↔ t.kind ≠ .newline ∧
        ∃ start, openLine? (seen ++ first) = some start ∧ start ≠ t.span.start) := by
  induction pos, cs using scanFrom.induct with
  | case1 pos cs h => simp [scanFrom_eq_nil h]
  | case2 pos cs blanks after c rest h kind n hlexeme piece ih =>
    change ∀ seen first, SeenBefore seen (pos.next blanks piece kind) → _ at ih
    intro seen first hseen hscan
    rw [scanFrom_eq h hlexeme] at hscan
    obtain ⟨first, rfl, hfirst⟩ := exists_first hscan ht
    cases first with
    | nil =>
      obtain ⟨rfl, -⟩ := List.cons.inj hfirst
      rw [List.append_nil, openLine?_append_lead]
      exact afterIndent_lead_iff hseen
    | cons u first =>
      obtain ⟨rfl, hothers⟩ := List.cons.inj hfirst
      rw [append_step]
      exact ih _ _ (.step (lexeme_ne_indent hlexeme)) hothers

/-- An indent in a scan stands in front of the first token, or after it. -/
theorem lead_or_later {blanks : List Char} {kind : Kind} {others us : List Token}
    (h : lead pos blanks kind ++ u :: others = ts ++ t :: us) (ht : t.kind = .indent)
    (hu : u.kind ≠ .indent) :
    (ts = [] ∧ lead pos blanks kind = [t] ∧ us = u :: others) ∨
      ∃ first, ts = lead pos blanks kind ++ u :: first ∧ others = first ++ t :: us := by
  have hne : t ≠ u := fun heq => hu (heq ▸ ht)
  obtain ⟨first, hts, hothers⟩ | ⟨last, hlead, hus⟩ := List.append_eq_append_iff.1 h
  · cases first with
    | nil => exact absurd (List.cons.inj hothers).1.symm hne
    | cons u' first =>
      obtain ⟨rfl, htail⟩ := List.cons.inj hothers
      exact .inr ⟨first, hts, htail⟩
  · cases last with
    | nil => exact absurd (List.cons.inj hus).1 hne
    | cons t' last =>
      obtain ⟨rfl, htail⟩ := List.cons.inj hus
      have hlen : (lead pos blanks kind).length ≤ 1 := by
        unfold lead
        split <;> simp
      rw [hlead, List.length_append, List.length_cons] at hlen
      obtain rfl := List.length_eq_zero_iff.1 (show ts.length = 0 by omega)
      obtain rfl := List.length_eq_zero_iff.1 (show last.length = 0 by omega)
      exact .inl ⟨rfl, hlead, htail⟩

/-- An indent reaches from the start of a line to the token that follows it. -/
theorem indent_spans (pos : Cursor) (cs : List Char) (ht : t.kind = .indent) :
    ∀ seen first, SeenBefore seen pos → scanFrom pos cs = first ++ t :: more →
      ∃ u others, more = u :: others ∧ u.kind ≠ .indent ∧
        openLine? (seen ++ first) = some t.span.start ∧ t.span.stop = u.span.start := by
  induction pos, cs using scanFrom.induct with
  | case1 pos cs h => simp [scanFrom_eq_nil h]
  | case2 pos cs blanks after c rest h kind n hlexeme piece ih =>
    change ∀ seen first, SeenBefore seen (pos.next blanks piece kind) → _ at ih
    have hkind : (after.token kind piece).kind ≠ .indent := lexeme_ne_indent hlexeme
    intro seen first hseen hscan
    rw [scanFrom_eq h hlexeme] at hscan
    obtain ⟨rfl, hlead, rfl⟩ | ⟨first, rfl, hothers⟩ := lead_or_later hscan ht hkind
    · obtain ⟨⟨hfresh, -, -⟩, rfl⟩ := mem_lead.1 (hlead ▸ List.mem_singleton_self t)
      refine ⟨_, _, rfl, hkind, ?_, rfl⟩
      rw [List.append_nil, hseen.openLine, hfresh]
      rfl
    · rw [append_step]
      exact ih _ _ (.step hkind) hothers

/-- An indent holds nothing but blanks. -/
theorem blank_of_mem_indent (h : t ∈ scanFrom pos cs) (ht : t.kind = .indent)
    (hc : c ∈ t.text.toList) : isBlank c := by
  obtain ⟨before, after, fresh, -, hfinds⟩ := exists_finds h
  cases hfinds with
  | indent _ _ hblank =>
    rw [Cursor.token, String.toList_ofList] at hc
    exact hblank c hc
  | lexeme hlexeme => exact absurd ht (lexeme_ne_indent hlexeme)

/-! ## Texts -/

/-- A token has at least one character, and its text is what its range cuts out. -/
theorem cuts_of_mem_scan {source : String} (h : t ∈ scan source) :
    t.span.start < t.span.stop ∧
      ∃ before after, t.span.Cuts source.toList before t.text.toList after := by
  obtain ⟨before, piece, after, fresh, hcs, hpiece, heq, -⟩ := exists_piece h
  have hspan : t.span = ⟨byteLength before, byteLength before + byteLength piece⟩ := by
    rw [heq]
    simp [Cursor.token, Cursor.advance]
  have htext : t.text.toList = piece := by
    rw [heq]
    exact String.toList_ofList
  rw [htext]
  refine ⟨?_, before, after, hcs, hspan⟩
  rw [hspan]
  exact Nat.lt_add_of_pos_right (byteLength_pos hpiece)

/-- Scanning loses nothing. Each token has at least one character, at its place and with its text,
and the tokens stand one after the other. Those other than indents make up the text, with blanks
between them: every byte outside of them is a space or a tab. An indent stands in front of the first
token of each line, unless that is a line break or begins at the start of the line; it reaches from
there to the token and holds nothing but spaces and tabs. -/
theorem scan_tiles (source : String) :
    (∀ t ∈ scan source, t.span.start < t.span.stop ∧
      ∃ before after, t.span.Cuts source.toList before t.text.toList after) ∧
      (scan source).Pairwise (fun t u => t.span.stop ≤ u.span.start) ∧
      Tiles 0 source.toList (visible (scan source)) ∧
      (∀ before c after byte, source.toList = before ++ c :: after →
        byteLength before ≤ byte ∧ byte < byteLength before + c.utf8Size →
        (∀ t ∈ visible (scan source), ¬(t.span.start ≤ byte ∧ byte < t.span.stop)) →
        c = ' ' ∨ c = '\t') ∧
      (∀ seen t more, scan source = seen ++ t :: more → t.kind ≠ .indent →
        (AfterIndent seen ↔ t.kind ≠ .newline ∧
          ∃ start, openLine? seen = some start ∧ start ≠ t.span.start)) ∧
      ∀ seen t more, scan source = seen ++ t :: more → t.kind = .indent →
        (∃ u others, more = u :: others ∧ u.kind ≠ .indent ∧
          openLine? seen = some t.span.start ∧ t.span.stop = u.span.start) ∧
        ∀ c ∈ t.text.toList, c = ' ' ∨ c = '\t' := by
  have htiles : Tiles 0 source.toList (visible (scan source)) := scanFrom_tiles {} _
  have hblank {c : Char} (hc : isBlank c) : c = ' ' ∨ c = '\t' := by simpa [isBlank] using hc
  refine ⟨fun t => cuts_of_mem_scan, pairwise_scanFrom {} _, htiles,
    fun before c after byte hcs hbyte hnone => ?_, fun seen t more hscan ht => ?_,
    fun seen t more hscan ht => ⟨?_, fun c hc => ?_⟩⟩
  · refine hblank (htiles.blank_of_uncovered hcs ?_ hnone)
    rwa [Nat.zero_add]
  · exact afterIndent_iff {} _ ht [] seen seenBefore_nil hscan
  · exact indent_spans {} _ ht [] seen seenBefore_nil hscan
  · have hmem : t ∈ scan source := hscan ▸ List.mem_append_right _ List.mem_cons_self
    exact hblank (blank_of_mem_indent hmem ht hc)

end Token

end DoubleEntry
