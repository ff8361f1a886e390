import DoubleEntry.Proofs.Journal.Spans
import Mathlib.Data.Nat.PSub
import Mathlib.Data.Prod.Lex

/-!
# Positions and lines

An offset of a text is told as a line and a column, and a line by its text. Both are looked up in a
table of the offsets where lines start: a search that halves the table finds the last line that
starts at an offset or before, and a line is what stands between its start and the next one. What
is found is the line between the line feeds around the offset.

* `partitionPoint`: where a property ends in a list, found by halving.
* `Source.searchLine`, `Source.searchPosition?`, `Source.cutLine`: a line, a position and the text
  of a line as they are looked up, with all that could fail on the way.
* `Source.IsLine`: a line of a text, by the line feeds around it; `Source.exists_isLine` and
  `Source.exists_isLine_around` find the one with a number and the one at an offset.
* `Source.IsLine.position_eq`, `Source.IsLine.line?_eq`: its positions and its text.
* `Source.strictMono_position`: positions are in the order of offsets.
* `Source.position_inverts`: how positions, offsets and lines determine each other.
-/

namespace DoubleEntry

/-! ## Searching by halves -/

/-- Of the places from `low` on, `size` many, the first at which a property does not hold, or the
place after them. A look at the middle tells in which half to go on, provided that the property does
not hold again later. -/
def bisect (p : Nat → Bool) (low size : Nat) : Nat :=
  if size = 0 then low
  else
    let half := size / 2
    if p (low + half) then bisect p (low + half + 1) (size - half - 1) else bisect p low half
termination_by size

/-- How many elements at the front of a list have a property, if none has it after them. -/
def partitionPoint {α : Type} (p : α → Bool) (l : List α) : Nat :=
  bisect (fun i => l[i]?.any p) 0 l.length

theorem bisect_eq {p : Nat → Bool} {low size point : Nat} (hlow : low ≤ point)
    (hhigh : point ≤ low + size) (hbefore : ∀ i < point, p i)
    (hafter : ∀ i, point ≤ i → i < low + size → ¬p i) : bisect p low size = point := by
  fun_induction bisect p low size with
  | case1 low => omega
  | case2 low size hsize half hp ih =>
    have hhalf : half < size := Nat.div_lt_self (Nat.pos_of_ne_zero hsize) (by decide)
    -- The property has not ended in the middle, so it ends after it.
    have hpoint : low + half < point := by
      by_contra hle
      exact hafter (low + half) (by omega) (by omega) hp
    exact ih (by omega) (by omega) fun i hi hlt => hafter i hi (by omega)
  | case3 low size hsize half hp ih =>
    have hpoint : point ≤ low + half := by
      by_contra hlt
      exact hp (hbefore (low + half) (by omega))
    exact ih hlow hpoint fun i hi hlt => hafter i hi (by omega)

theorem partitionPoint_append {α : Type} {p : α → Bool} {l l' : List α} (h : ∀ a ∈ l, p a)
    (h' : ∀ a ∈ l', ¬p a) : partitionPoint p (l ++ l') = l.length := by
  refine bisect_eq (Nat.zero_le _) (by simp) (fun i hi => ?_) fun i hi hlt => ?_
  · rw [List.getElem?_append_left hi, List.getElem?_eq_getElem hi]
    exact h _ (List.getElem_mem hi)
  · rw [Nat.zero_add, List.length_append] at hlt
    have hlt' : i - l.length < l'.length := by omega
    rw [List.getElem?_append_right hi, List.getElem?_eq_getElem hlt']
    exact h' _ (List.getElem_mem hlt')

/-! ## Looking up in the table -/

instance Token.decidableIsBoundary (cs : List Char) (offset : Nat) :
    Decidable (IsBoundary cs offset) :=
  decidable_of_iff (∃ n < cs.length + 1, offset = byteLength (cs.take n)) <| by
    constructor
    · rintro ⟨n, -, rfl⟩
      exact ⟨cs.take n, cs.drop n, (List.take_append_drop n cs).symm, rfl⟩
    · rintro ⟨before, after, rfl, rfl⟩
      have hlength : before.length < (before ++ after).length + 1 := by
        rw [List.length_append]
        omega
      exact ⟨before.length, hlength, by rw [List.take_left]⟩

namespace Source

variable {source : Source} {cs before piece after rest : List Char} {number offset n : Nat}

/-- The line of an offset: how many lines start there or before. -/
def searchLine (source : Source) (offset : Nat) : Nat :=
  partitionPoint (· ≤ offset) source.lineStarts

/-- The line and the column of an offset, from the last line that starts there or before. There is
nothing if a number became negative on the way, or no such line were in the table. -/
def searchPosition? (source : Source) (offset : Nat) : Option (Nat × Nat) := do
  let index ← (source.searchLine offset).ppred
  let start ← source.lineStarts[index]?
  let distance ← offset.psub start
  return (index + 1, distance + 1)

/-- The text of a range, provided that it begins and ends between characters, in this order. -/
def cut? (source : Source) (span : Span) : Option String :=
  if span.start ≤ span.stop ∧ Token.IsBoundary source.text.toList span.start ∧
      Token.IsBoundary source.text.toList span.stop then
    some (source.slice span)
  else none

/-- The text of a line, which reaches up to the line feed in front of the next one, or to the end.
There is no text if no such line is in the table, and nothing at all if a number became negative on
the way, or the range of the line were no range of the text. -/
def cutLine (source : Source) (line : Nat) : Option (Option String) :=
  match line.ppred.bind (source.lineStarts[·]?) with
  | none => some none
  | some start => do
    let stop ← (source.lineStarts[line]?).elim (some source.byteLength) Nat.ppred
    let piece ← source.cut? ⟨start, stop⟩
    return some (String.ofList (dropTrailing '\r' piece.toList))

theorem cut?_of_cuts {span : Span} (h : span.Cuts source.text.toList before piece after) :
    source.cut? span = some (String.ofList piece) := by
  have hle : span.start ≤ span.stop := by
    rw [h.span]
    exact Nat.le_add_right _ _
  rw [cut?, if_pos ⟨hle, Token.isBoundary_start h, Token.isBoundary_stop h⟩, slice_of_cuts h]

/-! ## Lines of a text -/

/-- The line of a text with a number. There is no line feed in it, but there is one right before it
and one right after it, unless the text begins or ends there; those before it are counted. -/
structure IsLine (cs : List Char) (number : Nat) (before piece after : List Char) : Prop where
  text : cs = before ++ (piece ++ after)
  number_eq : number = before.count '\n' + 1
  whole : '\n' ∉ piece
  opens : before = [] ∨ ∃ init, before = init ++ ['\n']
  closes : after = [] ∨ ∃ rest, after = '\n' :: rest

/-- The line with a number starts at an offset. -/
def StartsLine (source : Source) (number start : Nat) : Prop :=
  ∃ before piece after, IsLine source.text.toList number before piece after ∧
    start = Token.byteLength before

theorem count_below (h : '\n' ∉ piece) (rest : List Char) :
    (piece ++ '\n' :: rest).count '\n' = rest.count '\n' + 1 := by
  rw [List.count_append, List.count_eq_zero.2 h, List.count_cons_self, Nat.zero_add]

/-- Induction on a text by its lines. -/
theorem lines_induction {motive : List Char → Prop} (last : ∀ piece, '\n' ∉ piece → motive piece)
    (line : ∀ piece rest, '\n' ∉ piece → motive rest → motive (piece ++ '\n' :: rest))
    (cs : List Char) : motive cs := by
  induction hn : cs.count '\n' generalizing cs with
  | zero => exact last cs (List.count_eq_zero.1 hn)
  | succ n ih =>
    have hmem : '\n' ∈ cs := List.count_pos_iff.1 (hn ▸ Nat.succ_pos n)
    obtain ⟨piece, rest, rfl, hpiece⟩ := List.eq_append_cons_of_mem hmem
    rw [count_below hpiece] at hn
    exact line piece rest hpiece (ih rest (Nat.succ.inj hn))

theorem isLine_last (h : '\n' ∉ piece) : IsLine piece 1 [] piece [] :=
  ⟨by simp, rfl, h, .inl rfl, .inl rfl⟩

theorem isLine_first (h : '\n' ∉ piece) (rest : List Char) :
    IsLine (piece ++ '\n' :: rest) 1 [] piece ('\n' :: rest) :=
  ⟨rfl, rfl, h, .inl rfl, .inr ⟨rest, rfl⟩⟩

/-- A line is still a line below another one. -/
theorem IsLine.below {first : List Char} (h : IsLine rest number before piece after)
    (hfirst : '\n' ∉ first) :
    IsLine (first ++ '\n' :: rest) (number + 1) (first ++ '\n' :: before) piece after where
  text := by rw [h.text, List.append_assoc, List.cons_append]
  number_eq := by rw [h.number_eq, count_below hfirst]
  whole := h.whole
  opens := by
    obtain rfl | ⟨init, rfl⟩ := h.opens
    · exact .inr ⟨first, rfl⟩
    · exact .inr ⟨first ++ '\n' :: init, by simp⟩
  closes := h.closes

/-- A text has one more line than line feeds. -/
theorem exists_isLine (h : n ≤ cs.count '\n') :
    ∃ before piece after, IsLine cs (n + 1) before piece after := by
  induction cs using lines_induction generalizing n with
  | last piece hpiece =>
    obtain rfl : n = 0 := by rwa [List.count_eq_zero.2 hpiece, Nat.le_zero] at h
    exact ⟨[], piece, [], isLine_last hpiece⟩
  | line first rest hfirst ih =>
    cases n with
    | zero => exact ⟨[], first, '\n' :: rest, isLine_first hfirst rest⟩
    | succ n =>
      rw [count_below hfirst] at h
      obtain ⟨before, piece, after, hline⟩ := ih (Nat.le_of_succ_le_succ h)
      exact ⟨_, piece, after, hline.below hfirst⟩

theorem length_splitOn (cs : List Char) : (cs.splitOn '\n').length = cs.count '\n' + 1 := by
  induction cs using lines_induction with
  | last piece hpiece =>
    rw [List.splitOn_eq_singleton hpiece, List.count_eq_zero.2 hpiece, List.length_singleton]
  | line first rest hfirst ih =>
    rw [List.splitOn_append_cons_self_of_not_mem hfirst, List.length_cons, ih, count_below hfirst]

/-- Every offset of a text is on a line, or at its end. -/
theorem exists_isLine_around (h : offset ≤ Token.byteLength cs) :
    ∃ number before piece after, IsLine cs number before piece after ∧
      Token.byteLength before ≤ offset ∧
      offset ≤ Token.byteLength before + Token.byteLength piece := by
  induction cs using lines_induction generalizing offset with
  | last piece hpiece =>
    exact ⟨1, [], piece, [], isLine_last hpiece, Nat.zero_le _, by simpa [Token.byteLength]⟩
  | line first rest hfirst ih =>
    by_cases hle : offset ≤ Token.byteLength first
    · exact ⟨1, [], first, '\n' :: rest, isLine_first hfirst rest, Nat.zero_le _,
        by simpa [Token.byteLength]⟩
    · have hfeed : Token.byteLength ['\n'] = 1 := rfl
      have hcons (cs : List Char) : Token.byteLength (first ++ '\n' :: cs) =
          Token.byteLength first + 1 + Token.byteLength cs := by
        rw [List.append_cons, Token.byteLength_append, Token.byteLength_append, hfeed]
      rw [hcons] at h
      -- What is not on the first line is on a line of the rest, as far into it.
      have hrest : offset - (Token.byteLength first + 1) ≤ Token.byteLength rest := by omega
      obtain ⟨number, before, piece, after, hline, hstart, hstop⟩ := ih hrest
      refine ⟨number + 1, _, piece, after, hline.below hfirst, ?_, ?_⟩ <;> rw [hcons] <;> omega

/-! ## The table at a line -/

theorem breaks_eq_nil (h : '\n' ∉ cs) (offset : Nat) : breaks offset cs = [] :=
  List.eq_nil_of_length_eq_zero (by rw [length_breaks, List.count_eq_zero.2 h])

/-- What stands in front of an offset starts no line after it. -/
theorem starts_le (h : Token.byteLength before ≤ offset) :
    ∀ start ∈ 0 :: breaks 0 before, decide (start ≤ offset) := by
  refine List.forall_mem_cons.2 ⟨decide_eq_true (Nat.zero_le _), fun start hstart => ?_⟩
  have := mem_breaks hstart
  simp only [decide_eq_true_eq]
  omega

/-- What stands at an offset or after it starts only lines after it. -/
theorem lt_starts {place : Nat} (h : offset ≤ place) :
    ∀ start ∈ breaks place after, ¬decide (start ≤ offset) := by
  intro start hstart
  have := mem_breaks hstart
  simp only [decide_eq_true_eq]
  omega

namespace IsLine

/-- The lines up to this one start in front of it, and the others after it. -/
theorem lineStarts_eq (h : IsLine source.text.toList number before piece after) :
    source.lineStarts = (0 :: breaks 0 before) ++
      breaks (Token.byteLength before + Token.byteLength piece) after := by
  rw [Source.lineStarts_eq, h.text, breaks_append, breaks_append, breaks_eq_nil h.whole,
    List.nil_append, List.cons_append, Nat.zero_add]

/-- The last of those is its own start. -/
theorem getLast?_starts (h : IsLine cs number before piece after) :
    (0 :: breaks 0 before).getLast? = some (Token.byteLength before) := by
  obtain rfl | ⟨init, rfl⟩ := h.opens
  · rfl
  · have hfeed (start : Nat) : breaks start ['\n'] = [start + 1] := rfl
    rw [breaks_append, hfeed, ← List.cons_append, List.getLast?_concat, Nat.zero_add,
      Token.byteLength_append]
    rfl

theorem length_starts (h : IsLine cs number before piece after) :
    (0 :: breaks 0 before).length = number := by
  rw [List.length_cons, length_breaks, h.number_eq]

/-- The table has the start of the line under its number. -/
theorem getElem?_lineStarts (h : IsLine source.text.toList number before piece after) :
    source.lineStarts[number - 1]? = some (Token.byteLength before) := by
  have hlast := h.getLast?_starts
  rw [List.getLast?_eq_getElem?, h.length_starts] at hlast
  rw [h.lineStarts_eq, List.getElem?_append_left, hlast]
  rw [h.length_starts, h.number_eq]
  exact Nat.lt_succ_self _

/-- The next entry is that of the line after it, if there is one. -/
theorem stop_eq (h : IsLine source.text.toList number before piece after) :
    (source.lineStarts[number]?).elim (some source.byteLength) Nat.ppred =
      some (Token.byteLength before + Token.byteLength piece) := by
  rw [h.lineStarts_eq, List.getElem?_append_right (by rw [h.length_starts]), h.length_starts,
    Nat.sub_self]
  obtain rfl | ⟨rest, rfl⟩ := h.closes
  · rw [Source.byteLength, h.text, Token.byteLength_append, Token.byteLength_append]
    rfl
  · rw [breaks_cons, if_pos rfl]
    rfl

/-! ## What is found -/

section Around

variable (h : IsLine source.text.toList number before piece after)
  (hstart : Token.byteLength before ≤ offset)
  (hstop : offset ≤ Token.byteLength before + Token.byteLength piece)

include h hstart hstop

theorem position_eq :
    source.position offset = (number, offset - Token.byteLength before + 1) := by
  have hfilter : source.lineStarts.filter (· ≤ offset) = 0 :: breaks 0 before := by
    rw [h.lineStarts_eq, List.filter_append, List.filter_eq_self.2 (starts_le hstart),
      List.filter_eq_nil_iff.2 (lt_starts hstop), List.append_nil]
  have hlast : (0 :: breaks 0 before).getLastD 0 = Token.byteLength before := by
    rw [List.getLastD_eq_getLast?, h.getLast?_starts, Option.getD_some]
  simp only [position, positionIn, hfilter, h.length_starts, hlast]

theorem searchLine_eq : source.searchLine offset = number := by
  rw [searchLine, h.lineStarts_eq,
    partitionPoint_append (starts_le hstart) (lt_starts hstop), h.length_starts]

theorem searchPosition?_eq :
    source.searchPosition? offset = some (number, offset - Token.byteLength before + 1) := by
  have hindex : number.ppred = some (number - 1) := by
    rw [h.number_eq]
    rfl
  have hnumber : number - 1 + 1 = number := by
    rw [h.number_eq]
    rfl
  simp only [searchPosition?, h.searchLine_eq hstart hstop, hindex, h.getElem?_lineStarts,
    Nat.psub_eq_sub hstart, Option.bind_eq_bind, Option.bind_some, hnumber]
  rfl

omit hstart in
/-- From the start of the line to the offset there is no line feed. -/
theorem not_mem_slice : '\n' ∉ (source.slice ⟨Token.byteLength before, offset⟩).toList := by
  rw [slice, String.toList_ofList, h.text, charsFrom_append, charsFrom_append, Nat.zero_add]
  intro hmem
  obtain ⟨⟨place, c⟩, hc, rfl⟩ := List.mem_map.1 hmem
  simp only [List.mem_filter, List.mem_append, decide_eq_true_eq] at hc
  obtain ⟨hc | hc | hc, hfrom, hto⟩ := hc
  · have := bounds_of_mem_charsFrom hc
    omega
  · refine h.whole ?_
    rw [← map_charsFrom (Token.byteLength before) piece]
    exact List.mem_map_of_mem hc
  · have := bounds_of_mem_charsFrom hc
    omega

end Around

theorem cutLine_eq (h : IsLine source.text.toList number before piece after) :
    source.cutLine number = some (some (String.ofList (dropTrailing '\r' piece))) := by
  have hindex : number.ppred.bind (source.lineStarts[·]?) = some (Token.byteLength before) := by
    rw [← h.getElem?_lineStarts, h.number_eq]
    rfl
  have hcut : source.cut?
      ⟨Token.byteLength before, Token.byteLength before + Token.byteLength piece⟩ =
        some (String.ofList piece) := cut?_of_cuts ⟨h.text, rfl⟩
  simp only [cutLine, hindex, h.stop_eq, Option.bind_eq_bind, Option.bind_some, hcut,
    String.toList_ofList]
  rfl

/-- A line is the piece with its number between the line feeds. -/
theorem getElem?_splitOn (h : IsLine cs number before piece after) :
    (cs.splitOn '\n')[number - 1]? = some piece := by
  have hlast : ((piece ++ after).splitOn '\n')[0]? = some piece := by
    obtain rfl | ⟨rest, rfl⟩ := h.closes
    · rw [List.append_nil, List.splitOn_eq_singleton h.whole, List.getElem?_cons_zero]
    · rw [List.splitOn_append_cons_self_of_not_mem h.whole, List.getElem?_cons_zero]
  rw [h.number_eq, Nat.add_sub_cancel, h.text]
  obtain rfl | ⟨init, rfl⟩ := h.opens
  · exact hlast
  · -- There are as many pieces in front of the line as line feeds.
    have hlength : (init ++ ['\n']).count '\n' = (init.splitOn '\n').length := by
      rw [length_splitOn, List.count_append]
      rfl
    rw [List.append_assoc, List.singleton_append, List.splitOn_append_cons_self, hlength,
      List.getElem?_append_right (Nat.le_refl _), Nat.sub_self, hlast]

theorem line?_eq (h : IsLine source.text.toList number before piece after) :
    source.line? number = some (String.ofList (dropTrailing '\r' piece)) := by
  have hpiece := h.getElem?_splitOn
  rw [h.number_eq, Nat.add_sub_cancel] at hpiece
  rw [h.number_eq, line?, hpiece, Option.map_some]

end IsLine

/-! ## Positions and lines of a text -/

theorem exists_eq_dropTrailing_append (c : Char) (cs : List Char) :
    ∃ n, cs = dropTrailing c cs ++ List.replicate n c := by
  have hsame : cs.reverse.takeWhile (· = c) =
      List.replicate (cs.reverse.takeWhile (· = c)).length c :=
    List.eq_replicate_of_mem fun d hd => by simpa using List.mem_takeWhile_imp hd
  refine ⟨(cs.reverse.takeWhile (· = c)).length, ?_⟩
  calc
    cs = (cs.reverse.takeWhile (· = c) ++ cs.reverse.dropWhile (· = c)).reverse := by
      rw [List.takeWhile_append_dropWhile, List.reverse_reverse]
    _ = dropTrailing c cs ++ (cs.reverse.takeWhile (· = c)).reverse := List.reverse_append
    _ = dropTrailing c cs ++ List.replicate (cs.reverse.takeWhile (· = c)).length c := by
      rw [hsame, List.reverse_replicate, List.length_replicate]

theorem getLast?_dropTrailing (c : Char) (cs : List Char) :
    (dropTrailing c cs).getLast? ≠ some c := by
  intro hlast
  rw [dropTrailing, List.getLast?_reverse] at hlast
  have hhead := List.head?_dropWhile_not (· = c) cs.reverse
  simp [hlast] at hhead

theorem dropTrailing_append_replicate {c : Char} {kept : List Char} (h : kept.getLast? ≠ some c)
    (n : Nat) : dropTrailing c (kept ++ List.replicate n c) = kept := by
  have hkept : kept.reverse.dropWhile (· = c) = kept.reverse := by
    cases hreverse : kept.reverse with
    | nil => rfl
    | cons d more =>
      have hd : d ≠ c := by
        rintro rfl
        exact h (by rw [← List.head?_reverse, hreverse, List.head?_cons])
      exact List.dropWhile_cons_of_neg (by simpa using hd)
  have hsame : ∀ d ∈ List.replicate n c, decide (d = c) := fun d hd =>
    decide_eq_true (List.eq_of_mem_replicate hd)
  rw [dropTrailing, List.reverse_append, List.reverse_replicate,
    List.dropWhile_append_of_pos hsame, hkept, List.reverse_reverse]

/-- A line has the text of its piece, without the carriage returns at the end. -/
theorem line?_eq_some_iff {line : String} :
    source.line? (n + 1) = some line ↔
      ∃ returns, (source.text.toList.splitOn '\n')[n]? =
        some (line.toList ++ List.replicate returns '\r') ∧ line.toList.getLast? ≠ some '\r' := by
  simp only [line?, Option.map_eq_some_iff]
  constructor
  · rintro ⟨piece, hpiece, rfl⟩
    obtain ⟨returns, htext⟩ := exists_eq_dropTrailing_append '\r' piece
    rw [String.toList_ofList]
    exact ⟨returns, htext ▸ hpiece, getLast?_dropTrailing '\r' piece⟩
  · rintro ⟨returns, hpiece, hlast⟩
    refine ⟨_, hpiece, ?_⟩
    rw [dropTrailing_append_replicate hlast, String.ofList_toList]

/-- There are as many lines as line feeds, and one more. -/
theorem isSome_line?_iff (source : Source) (line : Nat) :
    (source.line? line).isSome ↔ 1 ≤ line ∧ line ≤ source.text.toList.count '\n' + 1 := by
  cases line with
  | zero => simp [line?]
  | succ n =>
    rw [line?, Option.isSome_map, isSome_getElem?, length_splitOn]
    omega

/-- The table gives the lines of the text, and the search for them does not fail. -/
theorem cutLine_eq (source : Source) (line : Nat) :
    source.cutLine line = some (source.line? line) := by
  cases line with
  | zero => rfl
  | succ n =>
    by_cases hn : n ≤ source.text.toList.count '\n'
    · obtain ⟨before, piece, after, h⟩ := exists_isLine hn
      rw [h.cutLine_eq, h.line?_eq]
    · have hline : source.line? (n + 1) = none := by
        rw [← Option.not_isSome_iff_eq_none, isSome_line?_iff]
        omega
      have hstart : source.lineStarts[n]? = none := by
        rw [List.getElem?_eq_none_iff, lineStarts_eq, List.length_cons, length_breaks]
        omega
      rw [hline, cutLine, Nat.ppred_succ, Option.bind_some, hstart]

/-- A later offset has a later position. -/
theorem strictMono_position (source : Source) :
    StrictMono fun offset => toLex (source.position offset) := by
  intro a b hab
  have hsub : (source.lineStarts.filter (· ≤ a)).Sublist (source.lineStarts.filter (· ≤ b)) :=
    List.monotone_filter_right _ fun start hstart => by
      simp only [decide_eq_true_eq] at hstart ⊢
      omega
  rw [Prod.Lex.toLex_lt_toLex]
  rcases Nat.lt_or_eq_of_le hsub.length_le with hlt | heq
  · exact .inl hlt
  · -- On one line the columns count from one start, which is at the first offset or before.
    have hsame := hsub.eq_of_length heq
    have hle : (source.lineStarts.filter (· ≤ a)).getLastD 0 ≤ a := by
      rw [List.getLastD_eq_getLast?]
      cases hlast : (source.lineStarts.filter (· ≤ a)).getLast? with
      | none => exact Nat.zero_le _
      | some start => exact of_decide_eq_true (List.mem_filter.1 (List.mem_of_getLast? hlast)).2
    refine .inr ⟨heq, ?_⟩
    simp only [position, positionIn]
    rw [← hsame]
    omega

/-- An offset of a text is as many bytes after the start of its line as its column tells, and there
is no line feed in between; later offsets have later positions. The search in the table finds the
position of every offset, and finds for every token the line that was counted up to it. There is one
more line than there are line feeds; each is a piece between them, without the carriage returns at
its end, and this is what the table gives. -/
theorem position_inverts (source : Source) :
    (∀ offset ≤ source.byteLength, ∀ line column, source.position offset = (line, column) →
      1 ≤ column ∧ column - 1 ≤ offset ∧ source.StartsLine line (offset - (column - 1)) ∧
        '\n' ∉ (source.slice ⟨offset - (column - 1), offset⟩).toList ∧
        source.searchPosition? offset = some (line, column) ∧
        source.searchLine offset = line) ∧
      (StrictMono fun offset => toLex (source.position offset)) ∧
      (∀ line, (source.line? line).isSome ↔
        1 ≤ line ∧ line ≤ source.text.toList.count '\n' + 1) ∧
      (∀ n line, source.line? (n + 1) = some line ↔
        ∃ returns, (source.text.toList.splitOn '\n')[n]? =
          some (line.toList ++ List.replicate returns '\r') ∧
            line.toList.getLast? ≠ some '\r') ∧
      (∀ line, source.cutLine line = some (source.line? line)) ∧
      ∀ t ∈ Token.scan source.text, t.line = source.searchLine t.span.start := by
  refine ⟨fun offset hoffset line column hposition => ?_, strictMono_position source,
    isSome_line?_iff source, fun n line => line?_eq_some_iff, cutLine_eq source, fun t ht => ?_⟩
  · obtain ⟨number, before, piece, after, h, hstart, hstop⟩ := exists_isLine_around hoffset
    rw [h.position_eq hstart hstop] at hposition
    obtain ⟨rfl, rfl⟩ := Prod.mk.inj hposition
    have hback : offset - (offset - Token.byteLength before + 1 - 1) = Token.byteLength before := by
      omega
    rw [hback]
    exact ⟨by omega, by omega, ⟨before, piece, after, h, rfl⟩, h.not_mem_slice hstop,
      h.searchPosition?_eq hstart hstop, h.searchLine_eq hstart hstop⟩
  · obtain ⟨hinside, hline⟩ := Token.line_of_mem_scan ht
    obtain ⟨number, before, piece, after, h, hstart, hstop⟩ :=
      exists_isLine_around (Nat.le_of_lt hinside)
    rw [hline, h.position_eq hstart hstop, h.searchLine_eq hstart hstop]

/-- A text with a character of two bytes, with several returns in front of a line feed, and with two
empty lines at the end. -/
def emptyLines : Source where
  path := "/main"
  text := "; \u00e9\r\r\n\n"

theorem position_inverts_emptyLines :
    (8 ≤ emptyLines.byteLength ∧ emptyLines.position 8 = (3, 1) ∧ emptyLines.StartsLine 3 8 ∧
        emptyLines.searchPosition? 8 = some (3, 1) ∧ emptyLines.searchLine 8 = 3) ∧
      (6 ≤ emptyLines.byteLength ∧ emptyLines.position 6 = (1, 7) ∧ emptyLines.StartsLine 1 0 ∧
        '\n' ∉ (emptyLines.slice ⟨0, 6⟩).toList ∧
        emptyLines.searchPosition? 6 = some (1, 7) ∧ emptyLines.searchLine 6 = 1) ∧
      toLex (emptyLines.position 6) < toLex (emptyLines.position 8) ∧
      ((emptyLines.line? 3).isSome ∧ ¬(emptyLines.line? 4).isSome) ∧
      emptyLines.line? 1 = some "; \u00e9" ∧
      emptyLines.cutLine 1 = some (emptyLines.line? 1) ∧
      ∀ t ∈ Token.scan emptyLines.text, t.line = emptyLines.searchLine t.span.start := by
  obtain ⟨hoffsets, hmono, hlines, htexts, htable, htokens⟩ := position_inverts emptyLines
  have hcount : emptyLines.text.toList.count '\n' = 2 := by decide +kernel
  obtain ⟨-, -, hend, -, hlast⟩ :=
    hoffsets 8 (by decide +kernel) 3 1 (by decide +kernel)
  obtain ⟨-, -, hfeed⟩ := hoffsets 6 (by decide +kernel) 1 7 (by decide +kernel)
  exact ⟨⟨by decide +kernel, by decide +kernel, hend, hlast⟩,
    ⟨by decide +kernel, by decide +kernel, hfeed⟩, hmono (by decide),
    ⟨(hlines 3).2 (by omega), fun h => by have := (hlines 4).1 h; omega⟩,
    (htexts 0 _).2 ⟨2, by decide +kernel, by decide +kernel⟩, htable 1, htokens⟩

end Source

end DoubleEntry
