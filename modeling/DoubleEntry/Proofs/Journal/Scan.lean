import DoubleEntry.Proofs.Journal.Lexeme
import Mathlib.Data.List.Basic
import Mathlib.Data.List.TakeWhile

/-!
# Scanning line by line

A text that ends with a line break can be scanned without what follows it, and what follows can be
scanned on its own: its tokens only stand further on.

* `Motion`: bytes and lines by which something stands further on; `Motion.past` is past a text.
* `exists_finds`: each token is an indent of blanks, or what the lexer reads at its place.
* `scanFrom_moved`: text that stands further on has the same tokens, moved.
* `scan_append`: the tokens of two texts, the first of which ends with a line break.
-/

namespace DoubleEntry

/-- By how much further on something stands in a text. -/
structure Motion where
  bytes : Nat
  lines : Nat

/-- What comes after a text stands further on by its bytes and its line feeds. -/
def Motion.past (source : String) : Motion :=
  ⟨Token.byteLength source.toList, source.toList.count '\n'⟩

/-- The range at its new place. -/
def Span.moved (m : Motion) (s : Span) : Span := ⟨s.start + m.bytes, s.stop + m.bytes⟩

namespace Token

variable {pos : Cursor} {cs more rest : List Char} {c : Char} {t : Token}

/-- The token at its new place. -/
def moved (m : Motion) (t : Token) : Token :=
  { t with span := t.span.moved m, line := t.line + m.lines }

@[simp] theorem byteLength_append (cs more : List Char) :
    byteLength (cs ++ more) = byteLength cs + byteLength more := by
  induction cs with
  | nil => simp [byteLength]
  | cons c cs ih => rw [List.cons_append, byteLength, byteLength, ih, Nat.add_assoc]

theorem eq_nil_of_byteLength (h : byteLength cs = 0) : cs = [] := by
  cases cs with
  | nil => rfl
  | cons c cs =>
    have hpos := c.utf8Size_pos
    rw [byteLength] at h
    omega

/-! ## One step of a scan -/

/-- The token for the blanks at the start of a line, if there is one. -/
def lead (pos : Cursor) (blanks : List Char) (kind : Kind) : List Token :=
  if pos.fresh ∧ blanks ≠ [] ∧ kind ≠ .newline then [pos.token .indent blanks] else []

theorem mem_lead {blanks : List Char} {kind : Kind} :
    t ∈ lead pos blanks kind ↔
      (pos.fresh ∧ blanks ≠ [] ∧ kind ≠ .newline) ∧ t = pos.token .indent blanks := by
  unfold lead
  split
  · next h => simp [h]
  · next h => simp [h]

/-- Blanks are found only in front of the first token: any other token is that one, or one after
it. -/
theorem exists_first {kind : Kind} {blanks piece : List Char} {others ts us : List Token}
    (h : lead pos blanks kind ++ (pos.advance blanks pos.fresh).token kind piece :: others =
      ts ++ t :: us)
    (hkind : t.kind ≠ .indent) :
    ∃ first, ts = lead pos blanks kind ++ first ∧
      (pos.advance blanks pos.fresh).token kind piece :: others = first ++ t :: us := by
  obtain hfirst | ⟨last, hlast, hothers⟩ := List.append_eq_append_iff.1 h
  · exact hfirst
  · cases last with
    | nil => exact ⟨[], by rw [hlast]; simp, hothers.symm⟩
    | cons t' last =>
      obtain ⟨rfl, -⟩ := List.cons.inj hothers
      have hmem : t ∈ lead pos blanks kind :=
        hlast ▸ List.mem_append_right _ List.mem_cons_self
      obtain ⟨-, rfl⟩ := mem_lead.1 hmem
      exact absurd rfl hkind

/-- The place after some blanks and a token. -/
def Cursor.next (pos : Cursor) (blanks piece : List Char) (kind : Kind) : Cursor :=
  (pos.advance blanks pos.fresh).advance piece (kind = .newline)

theorem scanFrom_eq_nil (h : cs.dropWhile isBlank = []) : scanFrom pos cs = [] := by
  rw [scanFrom]
  split
  · rfl
  · simp_all

theorem scanFrom_eq {kind : Kind} {n : Nat} (h : cs.dropWhile isBlank = c :: rest)
    (hlexeme : lexeme c rest = (kind, n)) :
    scanFrom pos cs =
      let blanks := cs.takeWhile isBlank
      let piece := c :: rest.take n
      lead pos blanks kind ++ (pos.advance blanks pos.fresh).token kind piece ::
        scanFrom (pos.next blanks piece kind) (rest.drop n) := by
  rw [scanFrom]
  split
  · simp_all
  · rename_i c' rest' h'
    obtain ⟨rfl, rfl⟩ := List.cons.inj (h.symm.trans h')
    simp only [hlexeme, lead]
    rfl

/-- The text is made up of its blanks, the first piece and what is left. -/
theorem eq_append_of_dropWhile {n : Nat} (h : cs.dropWhile isBlank = c :: rest) :
    cs = cs.takeWhile isBlank ++ (c :: rest.take n ++ rest.drop n) := by
  rw [List.cons_append, List.take_append_drop, ← h, List.takeWhile_append_dropWhile]

theorem advance_advance (pos : Cursor) (cs more : List Char) (fresh fresh' : Bool) :
    (pos.advance cs fresh).advance more fresh' = pos.advance (cs ++ more) fresh' := by
  simp only [Cursor.advance, byteLength_append, List.count_append, Nat.add_assoc]

/-! ## Each token at its place -/

/-- The token at a place where a text goes on: an indent of blanks, or what the lexer reads there. -/
inductive Cursor.Finds (pos : Cursor) : List Char → Token → Prop
  | indent {blanks : List Char} (more : List Char) (hne : blanks ≠ [])
      (hblank : ∀ c ∈ blanks, isBlank c) : pos.Finds (blanks ++ more) (pos.token .indent blanks)
  | lexeme {c : Char} {rest : List Char} {kind : Kind} {n : Nat}
      (hlexeme : lexeme c rest = (kind, n)) :
      pos.Finds (c :: rest) (pos.token kind (c :: rest.take n))

theorem exists_finds (ht : t ∈ scanFrom pos cs) :
    ∃ before after fresh, cs = before ++ after ∧ (pos.advance before fresh).Finds after t := by
  induction pos, cs using scanFrom.induct with
  | case1 pos cs h => simp [scanFrom_eq_nil h] at ht
  | case2 pos cs blanks after c rest h kind n hlexeme piece ih =>
    have hcs := eq_append_of_dropWhile (n := n) h
    rw [scanFrom_eq h hlexeme, List.mem_append, List.mem_cons] at ht
    obtain ht | rfl | ht := ht
    · obtain ⟨⟨-, hne, -⟩, rfl⟩ := mem_lead.1 ht
      have hhere : pos.advance [] pos.fresh = pos := by simp [Cursor.advance, byteLength]
      refine ⟨[], blanks ++ (piece ++ rest.drop n), pos.fresh, hcs, ?_⟩
      rw [hhere]
      exact .indent _ hne fun c hc => List.mem_takeWhile_imp hc
    · refine ⟨blanks, c :: rest, pos.fresh, ?_, .lexeme hlexeme⟩
      rw [← h, List.takeWhile_append_dropWhile]
    · obtain ⟨before, after', fresh, hrest, hfinds⟩ := ih ht
      rw [advance_advance, advance_advance] at hfinds
      refine ⟨blanks ++ (piece ++ before), after', fresh, ?_, hfinds⟩
      rw [hcs, hrest, List.append_assoc, List.append_assoc]

/-! ## Texts further on -/

section Further

variable (m : Motion)

/-- The place further on. -/
def Cursor.moved (pos : Cursor) : Cursor := ⟨pos.offset + m.bytes, pos.line + m.lines, pos.fresh⟩

theorem moved_token (pos : Cursor) (kind : Kind) (cs : List Char) :
    (pos.moved m).token kind cs = (pos.token kind cs).moved m := by
  simp only [Cursor.token, Cursor.moved, moved, Span.moved]
  congr 2
  omega

theorem moved_advance (pos : Cursor) (cs : List Char) (fresh : Bool) :
    (pos.moved m).advance cs fresh = (pos.advance cs fresh).moved m := by
  simp only [Cursor.advance, Cursor.moved]
  congr 1 <;> omega

theorem moved_next (pos : Cursor) (blanks piece : List Char) (kind : Kind) :
    (pos.moved m).next blanks piece kind = (pos.next blanks piece kind).moved m := by
  simp only [Cursor.next, moved_advance]
  rfl

theorem lead_moved (pos : Cursor) (blanks : List Char) (kind : Kind) :
    lead (pos.moved m) blanks kind = (lead pos blanks kind).map (moved m) := by
  unfold lead
  rw [moved_token, show (pos.moved m).fresh = pos.fresh from rfl]
  split <;> rfl

/-- Text that stands further on has the same tokens, moved. -/
theorem scanFrom_moved (pos : Cursor) (cs : List Char) :
    scanFrom (pos.moved m) cs = (scanFrom pos cs).map (moved m) := by
  induction pos, cs using scanFrom.induct with
  | case1 pos cs h => simp [scanFrom_eq_nil h]
  | case2 pos cs blanks after c rest h kind n hlexeme piece ih =>
    rw [scanFrom_eq h hlexeme, scanFrom_eq h hlexeme]
    simp only [show (pos.moved m).fresh = pos.fresh from rfl, lead_moved, moved_advance,
      moved_next, moved_token, List.map_append, List.map_cons]
    exact congrArg (_ ++ _ :: ·) ih

end Further

/-! ## Texts one after the other -/

theorem mem_of_newline (ht : t ∈ scanFrom pos cs) (hkind : t.kind = .newline) : '\n' ∈ cs := by
  obtain ⟨before, after, fresh, rfl, hfinds⟩ := exists_finds ht
  refine List.mem_append_right _ ?_
  cases hfinds with
  | indent => cases hkind
  | lexeme hlexeme =>
    obtain rfl := hkind
    obtain ⟨rfl, -⟩ | ⟨-, -, hrest⟩ := eq_of_lexeme_newline hlexeme
    · exact List.mem_cons_self
    · exact List.mem_cons_of_mem _ (List.mem_of_head? hrest)

/-- The first token of two texts, if the first text alone decides what it is. -/
theorem scanFrom_append_step {kind : Kind} {n : Nat} {others : List Token}
    (h : cs.dropWhile isBlank = c :: rest) (hlexeme : lexeme c rest = (kind, n))
    (hmore : lexeme c (rest ++ more) = (kind, n)) (hle : n ≤ rest.length)
    (hrest : scanFrom (pos.next (cs.takeWhile isBlank) (c :: rest.take n) kind)
        (rest.drop n ++ more) =
      scanFrom (pos.next (cs.takeWhile isBlank) (c :: rest.take n) kind) (rest.drop n) ++ others) :
    scanFrom pos (cs ++ more) = scanFrom pos cs ++ others := by
  have hdrop : (cs ++ more).dropWhile isBlank = c :: (rest ++ more) := by
    rw [List.dropWhile_append, h]
    rfl
  have htake : (cs ++ more).takeWhile isBlank = cs.takeWhile isBlank := by
    rw [List.takeWhile_append, if_neg]
    intro hall
    have hlen := congrArg List.length (List.takeWhile_append_dropWhile (p := isBlank) (l := cs))
    rw [List.length_append, hall, h] at hlen
    simp at hlen
  rw [scanFrom_eq h hlexeme, scanFrom_eq hdrop hmore, htake, List.take_append_of_le_length hle,
    List.drop_append_of_le_length hle]
  simp only [hrest, List.append_assoc, List.cons_append]

/-- Where the first text ends, the scan of both goes on with the second. -/
theorem scanFrom_append (hlast : (scanFrom pos cs).getLast? = some t) (hkind : t.kind = .newline)
    (hstop : t.span.stop = pos.offset + byteLength cs) (more : List Char) :
    scanFrom pos (cs ++ more) = scanFrom pos cs ++ scanFrom (pos.advance cs true) more := by
  induction pos, cs using scanFrom.induct with
  | case1 pos cs h => simp [scanFrom_eq_nil h] at hlast
  | case2 pos cs blanks after c rest h kind n hlexeme piece ih =>
    change (scanFrom (pos.next blanks piece kind) _).getLast? = _ → _ at ih
    have hend : (pos.next blanks piece kind).advance (rest.drop n) true = pos.advance cs true := by
      rw [Cursor.next, advance_advance, advance_advance, ← eq_append_of_dropWhile h]
    have hbytes : after.offset + byteLength piece + byteLength (rest.drop n) =
        pos.offset + byteLength cs := congrArg Cursor.offset hend
    rw [scanFrom_eq h hlexeme] at hlast
    change (lead pos blanks kind ++ after.token kind piece :: _).getLast? = _ at hlast
    by_cases hnil : scanFrom (pos.next blanks piece kind) (rest.drop n) = []
    · -- The token is the last one, so it is the line break, and nothing is left.
      rw [hnil, List.getLast?_concat] at hlast
      obtain rfl := Option.some.inj hlast
      obtain rfl : kind = .newline := hkind
      have hdrop : rest.drop n = [] := by
        refine eq_nil_of_byteLength ?_
        have hstop : after.offset + byteLength piece = pos.offset + byteLength cs := hstop
        omega
      obtain ⟨hmore, hle⟩ := lexeme_newline_append hlexeme more
      refine scanFrom_append_step h hlexeme hmore hle ?_
      rw [hnil, ← hend, hdrop]
      rfl
    · have hlast' : (scanFrom (pos.next blanks piece kind) (rest.drop n)).getLast? = some t := by
        rwa [List.getLast?_append_of_ne_nil _ (List.cons_ne_nil _ _),
          List.getLast?_cons_of_ne_nil hnil] at hlast
      have hin : '\n' ∈ rest.drop n := mem_of_newline (List.mem_of_getLast? hlast') hkind
      have hle : n ≤ rest.length := by
        by_contra hlt
        simp [List.drop_of_length_le (Nat.le_of_not_le hlt)] at hin
      refine scanFrom_append_step h hlexeme ?_ hle ?_
      · rw [← hlexeme]
        exact lexeme_append (by rwa [hlexeme]) more
      · rw [← hend]
        exact ih hlast' (hstop.trans hbytes.symm)

/-- The text ends with a line break. -/
def EndsLine (source : String) : Prop :=
  ∃ t, (scan source).getLast? = some t ∧ t.kind = .newline ∧
    t.span.stop = byteLength source.toList

/-- The place after a text is that of its start, past the text. -/
theorem advance_eq_moved (source : String) :
    ({} : Cursor).advance source.toList true = ({} : Cursor).moved (.past source) := by
  simp [Cursor.advance, Cursor.moved, Motion.past]

/-- The tokens of two texts, the first of which ends with a line break. -/
theorem scan_append {source : String} (h : EndsLine source) (more : String) :
    scan (source ++ more) = scan source ++ (scan more).map (moved (.past source)) := by
  obtain ⟨t, hlast, hkind, hstop⟩ := h
  rw [scan, String.toList_append, scanFrom_append hlast hkind (by simpa using hstop),
    advance_eq_moved, scanFrom_moved]
  rfl

end Token

end DoubleEntry
