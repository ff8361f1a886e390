import DoubleEntry.Proofs.Journal.Tiling
import DoubleEntry.Proofs.PostingLines

/-!
# The ranges of directives and errors

A directive takes up a piece of the text, from its date to the end of the last line that belongs to
it, and the pieces of two directives do not overlap: each is read from a block of lines of its own.
An error stands at a token, or where a line ends. So all these ranges begin and end where characters
do, and the texts and lines at them are what the text says.

* `Token.IsBoundary`: an offset is between two characters.
* `Source.slice_of_cuts`, `Source.lineOf_of_cuts`: the text and the line of a piece.
* `Line.pairwise_ofTokens`, `Block.pairwise_ofText`: lines and blocks stand one after the other.
* `Block.pairwise_of_items`: so do the directives that are read from them.
* `Journal.exact_spans`: the ranges and lines of directives and errors.
-/

namespace DoubleEntry

/-! ## Places in a text -/

namespace Token

variable {cs before piece after : List Char} {s : Span} {offset : Nat}

/-- The offset is that of the end of the text, or of one of its characters. -/
def IsBoundary (cs : List Char) (offset : Nat) : Prop :=
  ∃ before after, cs = before ++ after ∧ offset = byteLength before

theorem isBoundary_start (h : s.Cuts cs before piece after) : IsBoundary cs s.start := by
  obtain ⟨rfl, rfl⟩ := h
  exact ⟨before, piece ++ after, rfl, rfl⟩

theorem isBoundary_stop (h : s.Cuts cs before piece after) : IsBoundary cs s.stop := by
  obtain ⟨rfl, rfl⟩ := h
  exact ⟨before ++ piece, after, by simp, by simp⟩

/-- A range between two such offsets is that of a piece. -/
theorem exists_cuts (hstart : IsBoundary cs s.start) (hstop : IsBoundary cs s.stop)
    (hle : s.start ≤ s.stop) : ∃ before piece after, s.Cuts cs before piece after := by
  obtain ⟨start, stop⟩ := s
  obtain ⟨before, rest, rfl, rfl⟩ := hstart
  obtain ⟨whole, after, hcs, rfl⟩ := hstop
  obtain ⟨piece, rfl, hrest⟩ | ⟨more, rfl, hafter⟩ := List.append_eq_append_iff.1 hcs
  · exact ⟨before, piece, after, by rw [hrest], by rw [byteLength_append]⟩
  · have hnil : more = [] := by
      refine eq_nil_of_byteLength ?_
      simp only [byteLength_append] at hle
      omega
    subst hnil
    exact ⟨whole, [], rest, by simp, by simp [byteLength]⟩

end Token

namespace Source

variable {source : Source} {before piece after : List Char} {s : Span}

theorem map_charsFrom (offset : Nat) (cs : List Char) : (charsFrom offset cs).map (·.2) = cs := by
  induction cs generalizing offset with
  | nil => rfl
  | cons c cs ih => rw [charsFrom, List.map_cons, ih]

theorem bounds_of_mem_charsFrom {offset : Nat} {cs : List Char} {c : Nat × Char}
    (h : c ∈ charsFrom offset cs) : offset ≤ c.1 ∧ c.1 < offset + Token.byteLength cs := by
  induction cs generalizing offset with
  | nil => cases h
  | cons d cs ih =>
    have hpos := d.utf8Size_pos
    rw [Token.byteLength]
    rcases List.mem_cons.1 h with rfl | h
    · simp only
      omega
    · have := ih h
      omega

/-- The text of the range of a piece is the piece. -/
theorem slice_of_cuts (h : s.Cuts source.text.toList before piece after) :
    source.slice s = String.ofList piece := by
  rw [slice, h.text, h.span, charsFrom_append, charsFrom_append, List.filter_append,
    List.filter_append, Nat.zero_add]
  -- Of the three parts, the range takes the second one.
  rw [List.filter_eq_nil_iff.2 fun c hc => ?before, List.filter_eq_self.2 fun c hc => ?piece,
    List.filter_eq_nil_iff.2 fun c hc => ?after]
  · rw [List.nil_append, List.append_nil, map_charsFrom]
  all_goals
    have := bounds_of_mem_charsFrom hc
    simp only [decide_eq_true_eq]
    omega

/-- The line of a piece tells how many line feeds stand in front of it. -/
theorem lineOf_of_cuts (h : s.Cuts source.text.toList before piece after) :
    source.lineOf s = before.count '\n' + 1 := by
  rw [lineOf, h.span]
  exact line_position h.text

end Source

/-! ## Lines and blocks in their order -/

/-- What stands on the first line, and its end, come before what stands on the second. -/
def Line.Before (l l' : Line) : Prop :=
  ∀ t' ∈ l'.tokens, l.ending.stop ≤ t'.span.start ∧ ∀ t ∈ l.tokens, t.span.stop ≤ t'.span.start

/-- The lines of tokens that stand one after the other do so as well. -/
theorem Line.pairwise_ofTokens {tokens : List Token}
    (h : tokens.Pairwise fun t u => t.span.stop ≤ u.span.start) :
    (Line.ofTokens tokens).Pairwise Line.Before := by
  induction tokens with
  | nil => exact .nil
  | cons t tokens ih =>
    obtain ⟨ht, htokens⟩ := List.pairwise_cons.1 h
    have hmem : ∀ l ∈ ofTokens tokens, ∀ u ∈ l.tokens, t.span.stop ≤ u.span.start :=
      fun l hl u hu => ht u ((of_mem_ofTokens hl).mem u (List.mem_append_right _ hu))
    have ih := ih htokens
    change (prepend t (ofTokens tokens)).Pairwise Before
    generalize ofTokens tokens = lines at hmem ih
    unfold prepend
    split
    · exact .cons (fun l hl u hu => ⟨hmem l hl u hu, by simp⟩) ih
    · obtain ⟨hfirst, hrest⟩ := List.pairwise_cons.1 ih
      exact .cons hfirst hrest
    · obtain ⟨hfirst, hrest⟩ := List.pairwise_cons.1 ih
      refine .cons (fun l hl u hu => ?_) hrest
      obtain ⟨hending, hbefore⟩ := hfirst l hl u hu
      exact ⟨hending, List.forall_mem_cons.2 ⟨hmem l (List.mem_cons_of_mem _ hl) u hu, hbefore⟩⟩
    · exact List.pairwise_singleton _ _

/-- The lines of the first block come before those of the second. -/
def Block.Before (b b' : Block) : Prop := ∀ l ∈ b.lines, ∀ l' ∈ b'.lines, l.Before l'

/-- Blocks stand one after the other. -/
theorem Block.pairwise_ofText (text : String) : (Block.ofText text).Pairwise Block.Before := by
  have hlines := Line.pairwise_ofTokens (Token.pairwise_scanFrom {} text.toList)
  change (Line.ofTokens (Token.scan text)).Pairwise Line.Before at hlines
  rw [Block.eq_append_ofLines (Line.ofTokens (Token.scan text)), List.pairwise_append] at hlines
  exact (List.pairwise_flatMap.1 hlines.2.1).2

/-! ## Directives -/

/-- The directive covers the block from one of the tokens of its first line on. -/
def Placed.SaidBy (d : Placed Directive) (b : Block) : Prop := ∃ t ∈ b.head.tokens, d.Covers b t

/-- What one block says ends in front of what a later one says. -/
theorem Placed.SaidBy.stop_le_start {d d' : Placed Directive} {b b' : Block} (h : d.SaidBy b)
    (h' : d'.SaidBy b') (hbefore : b.Before b') : d.span.stop ≤ d'.span.start := by
  obtain ⟨t, ht, ⟨-, l, hl, hstop⟩⟩ := h
  obtain ⟨t', ht', ⟨⟨hstart, -⟩, -⟩⟩ := h'
  have hending := (hbefore l hl b'.head List.mem_cons_self t' ht').1
  have htoken := (hbefore b.head List.mem_cons_self b'.head List.mem_cons_self t' ht').2 t ht
  rw [hstop, hstart]
  exact Nat.max_le.2 ⟨hending, htoken⟩

namespace Block

variable {pushed : Pushed} {b : Block} {s : Step} {d : Placed Directive}

theorem saidBy_of_step (h : (b.step pushed).value? = some s)
    (hd : s.item = some (.directive d)) : d.SaidBy b := by
  have hread := directive_of_step h hd
  obtain ⟨-, l, -, hdate, -⟩ := reads_of_directive hread
  obtain ⟨t, ts, htokens, -, -⟩ := Line.date_eq_ok hdate
  have hhead : b.uncommented.head ∈ b.uncommented.lines := List.mem_cons_self
  have hbody : b.uncommented.body ⊆ b.uncommented.lines := List.subset_cons_self _ _
  have hreads := directive_reads pushed htokens (.refl _) hhead hbody
  obtain ⟨⟨hstarts, l, hl, hstop⟩, -⟩ := hreads.of_value? hread
  refine ⟨t, (List.dropWhile_sublist _).subset (htokens ▸ List.mem_cons_self), hstarts, ?_⟩
  -- The comments in front of the first line do not change where it ends.
  rcases List.mem_cons.1 hl with rfl | hl
  · exact ⟨b.head, List.mem_cons_self, hstop⟩
  · exact ⟨l, List.mem_cons_of_mem _ hl, hstop⟩

/-- Each directive is read from one of the blocks, and later ones from later blocks. -/
theorem pairwise_of_items {blocks : List Block} {said : List Item}
    (hblocks : blocks.Pairwise Before) (h : (items pushed blocks).value? = some said) :
    (∀ d ∈ Journal.directives ⟨said⟩, ∃ b ∈ blocks, d.SaidBy b) ∧
      (Journal.directives ⟨said⟩).Pairwise fun d d' => d.span.stop ≤ d'.span.start := by
  induction blocks generalizing pushed said with
  | nil =>
    obtain rfl := Option.some.inj h
    simp [Journal.directives, List.filterMap_map]
  | cons b blocks ih =>
    obtain ⟨hb, hblocks⟩ := List.pairwise_cons.1 hblocks
    simp only [items, Checked.value?_bind, Option.bind_eq_some_iff] at h
    obtain ⟨s, hs, after, hafter, rest, hrest, hsaid⟩ := h
    obtain rfl := Option.some.inj hsaid
    obtain ⟨hmem, hpairwise⟩ := ih hblocks hrest
    have hlater : ∀ d ∈ Journal.directives ⟨rest⟩, ∃ b' ∈ b :: blocks, d.SaidBy b' := by
      intro d hd
      obtain ⟨b', hb', hd⟩ := hmem d hd
      exact ⟨b', List.mem_cons_of_mem b hb', hd⟩
    obtain ⟨o, ho, hnone, -⟩ := stray_eq s.leftover
    obtain rfl : o = after := by simpa [ho] using hafter
    rw [Journal.directives_append, Journal.directives_append, hnone, List.append_nil]
    cases hitem : s.item with
    | none => exact ⟨hlater, hpairwise⟩
    | some i =>
      cases i with
      | directive d =>
        have hd : d.SaidBy b := saidBy_of_step hs hitem
        refine ⟨List.forall_mem_cons.2 ⟨⟨b, List.mem_cons_self, hd⟩, hlater⟩, .cons ?_ hpairwise⟩
        intro d' hd'
        obtain ⟨b', hb', hd'⟩ := hmem d' hd'
        exact hd.stop_le_start hd' (hb b' hb')
      | _ => exact ⟨hlater, hpairwise⟩

end Block

/-! ## Texts -/

namespace Line

variable {text : String} {l : Line} {span : Span}

/-- A line ends at a piece of the text: at its line break, or after its last token. -/
theorem exists_cuts_ending (hl : l ∈ ofTokens (Token.scan text)) :
    ∃ before piece after, l.ending.Cuts text.toList before piece after := by
  obtain ⟨hmem, hending⟩ := of_mem_ofTokens hl
  rcases hending with ⟨t, ht, heq⟩ | ⟨t, ht, -, heq⟩
  · obtain ⟨-, before, after, hcuts⟩ := Token.cuts_of_mem_scan ht
    exact ⟨before, _, after, heq ▸ hcuts⟩
  · obtain ⟨-, hcuts⟩ := Token.cuts_of_mem_scan (hmem t (List.mem_append_right _ ht))
    obtain ⟨before, after, hcuts⟩ := hcuts
    have hstop := Token.isBoundary_stop hcuts
    rw [heq]
    exact Token.exists_cuts hstop hstop (Nat.le_refl _)

/-- So does every place of the line. -/
theorem exists_cuts_of_isPlace (hl : l ∈ ofTokens (Token.scan text)) (h : l.IsPlace span) :
    ∃ before piece after, span.Cuts text.toList before piece after := by
  rcases h with ⟨t, ht, rfl⟩ | ⟨-, rfl⟩
  · obtain ⟨-, before, after, hcuts⟩ :=
      Token.cuts_of_mem_scan ((of_mem_ofTokens hl).mem t ht)
    exact ⟨before, _, after, hcuts⟩
  · exact exists_cuts_ending hl

end Line

namespace Placed.SaidBy

variable {text : String} {b : Block} {d : Placed Directive}

theorem start_lt_stop (h : d.SaidBy b) (hb : b ∈ Block.ofText text) :
    d.span.start < d.span.stop := by
  obtain ⟨t, ht, ⟨⟨hstart, -⟩, l, -, hstop⟩⟩ := h
  have hlt := (Token.cuts_of_mem_scan (Block.subset_scan hb List.mem_cons_self ht)).1
  rw [hstart, hstop]
  exact Nat.lt_of_lt_of_le hlt (Nat.le_max_right _ _)

theorem exists_cuts (h : d.SaidBy b) (hb : b ∈ Block.ofText text) :
    ∃ before piece after, d.span.Cuts text.toList before piece after := by
  have hle := Nat.le_of_lt (h.start_lt_stop hb)
  obtain ⟨t, ht, ⟨⟨hstart, -⟩, l, hl, hstop⟩⟩ := h
  obtain ⟨-, before, after, ht⟩ :=
    Token.cuts_of_mem_scan (Block.subset_scan hb List.mem_cons_self ht)
  refine Token.exists_cuts (hstart ▸ Token.isBoundary_start ht) ?_ hle
  obtain ⟨before, piece, after, hending⟩ := Line.exists_cuts_ending (Block.mem_of_mem_lines hb hl)
  rw [hstop]
  rcases Nat.le_total l.ending.stop t.span.stop with hmax | hmax
  · rw [Nat.max_eq_right hmax]
    exact Token.isBoundary_stop ht
  · rw [Nat.max_eq_left hmax]
    exact Token.isBoundary_stop hending

end Placed.SaidBy

namespace Journal

variable {source : Source} {j : Journal}

/-- The directives of a text are read from its blocks, in their order. -/
theorem pairwise_directives (h : (ofText source.text).value? = some j) :
    (∀ d ∈ j.directives, ∃ b ∈ Block.ofText source.text, d.SaidBy b) ∧
      j.directives.Pairwise fun d d' => d.span.stop ≤ d'.span.start := by
  obtain ⟨o, items, ho, hitems, rfl⟩ := value?_ofTokens.1 h
  obtain ⟨o', ho', hnone, -⟩ :=
    Block.stray_eq (Block.ofLines (Line.ofTokens (Token.scan source.text))).1
  obtain rfl : o' = o := by simpa [ho'] using ho
  rw [directives_append, hnone, List.nil_append]
  exact Block.pairwise_of_items (Block.pairwise_ofText source.text) hitems

/-- The line that a directive records is the one on which its range starts, whatever is written or
pushed under the key of the line. -/
theorem isLine_of_mem_directives (h : (ofText source.text).value? = some j)
    (hlines : source.lineCount < 2 ^ 64) {d : Placed Directive} (hd : d ∈ j.directives) :
    ∃ v, d.value.metadata.get? Metadata.lineKey = some v ∧ v.IsLine (source.lineOf d.span) := by
  obtain ⟨m, hm⟩ := metadata_of_mem_directives h hd
  have hline : source.lineOf d.span < 2 ^ 64 :=
    Nat.lt_of_le_of_lt (hasLine_of_mem_items h (mem_items_of_directive hd)).2 hlines
  obtain ⟨n, hget, -, hvalue⟩ := m.get?_setLine hline
  exact ⟨_, hm ▸ hget, n, rfl, hvalue⟩

/-- The ranges of directives are pieces of the text, none of them empty, and stand one after the
other; each directive records the line on which its range starts, by the line feeds in front of it.
The ranges of errors are pieces of the text, too, so that they have a text and a line. -/
theorem exact_spans (h : (ofText source.text).value? = some j) :
    (∀ d ∈ j.directives, d.span.start < d.span.stop ∧
      ∃ before piece after, d.span.Cuts source.text.toList before piece after ∧
        (source.lineCount < 2 ^ 64 → ∃ v, d.value.metadata.get? Metadata.lineKey = some v ∧
          v.IsLine (before.count '\n' + 1))) ∧
      j.directives.Pairwise (fun d d' => d.span.stop ≤ d'.span.start) ∧
      ∀ e ∈ j.errors, ∃ before piece after, e.span.Cuts source.text.toList before piece after ∧
        source.slice e.span = String.ofList piece ∧
        source.lineOf e.span = before.count '\n' + 1 := by
  obtain ⟨hsaid, hpairwise⟩ := pairwise_directives h
  refine ⟨fun d hd => ?_, hpairwise, fun e he => ?_⟩
  · obtain ⟨b, hb, hplaced⟩ := hsaid d hd
    obtain ⟨before, piece, after, hcuts⟩ := hplaced.exists_cuts hb
    refine ⟨hplaced.start_lt_stop hb, before, piece, after, hcuts, fun hlines => ?_⟩
    rw [← Source.lineOf_of_cuts hcuts]
    exact isLine_of_mem_directives h hlines hd
  · obtain ⟨l, hl, hplace⟩ := placedOn_of_mem_items h (mem_items_of_error he)
    obtain ⟨before, piece, after, hcuts⟩ := Line.exists_cuts_of_isPlace hl hplace
    exact ⟨before, piece, after, hcuts, Source.slice_of_cuts hcuts, Source.lineOf_of_cuts hcuts⟩

/-- A text with characters of two bytes, a directive on two lines, keys of the line and a date
alone at the end. -/
def scatteredPlaces : Source where
  path := "/main"
  text := "; Caf\u00e9\npushmeta lineno: \"7\"\n2024-01-01 event \"a\" \"\u00e9\n\"\n  lineno: \"9\"\n" ++
    "2024-01-02 close Assets:Bank\n2024-01-03"

theorem exact_spans_scatteredPlaces :
    ∃ j, (ofText scatteredPlaces.text).value? = some j ∧
      j.directives.map (·.span) = [⟨29, 70⟩, ⟨70, 99⟩] ∧
      j.errors.map (·.span) = [⟨99, 109⟩, ⟨17, 24⟩] ∧
      (∀ d ∈ j.directives, d.span.start < d.span.stop ∧
        ∃ before piece after, d.span.Cuts scatteredPlaces.text.toList before piece after ∧
          (scatteredPlaces.lineCount < 2 ^ 64 →
            ∃ v, d.value.metadata.get? Metadata.lineKey = some v ∧
              v.IsLine (before.count '\n' + 1))) ∧
      j.directives.Pairwise (fun d d' => d.span.stop ≤ d'.span.start) ∧
      ∀ e ∈ j.errors, ∃ before piece after,
        e.span.Cuts scatteredPlaces.text.toList before piece after ∧
          scatteredPlaces.slice e.span = String.ofList piece ∧
          scatteredPlaces.lineOf e.span = before.count '\n' + 1 := by
  obtain ⟨j, hj, hsaid⟩ := (Option.any_eq_true _ _).1
    (show (ofText scatteredPlaces.text).value?.any fun j =>
      j.directives.map (·.span) = [⟨29, 70⟩, ⟨70, 99⟩] ∧
        j.errors.map (·.span) = [⟨99, 109⟩, ⟨17, 24⟩] by decide +kernel)
  obtain ⟨hdirectives, herrors⟩ := of_decide_eq_true hsaid
  exact ⟨j, hj, hdirectives, herrors, exact_spans hj⟩

end Journal

end DoubleEntry
