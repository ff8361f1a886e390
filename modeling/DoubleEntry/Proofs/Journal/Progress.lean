import DoubleEntry.Proofs.Journal.Loops
import DoubleEntry.Proofs.Journal.Pushes

/-!
# Progress of a reader

A text is read in a loop: each pass looks at the next token, reads the entry that it begins, or an
error in it, and goes on behind that. Every pass takes at least one token, whatever is wrong with
the text, and adds at most one item. So the journal of a text is there after at most as many passes
as the text has tokens.

* `Token.skipLine`, `Token.recover`: the tokens behind a line, and behind the lines of an entry.
* `Token.LaidOut`: where blanks at the front of a line can stand.
* `Block.read`: what lines say, by the first of them (`Block.read_indented`, `Block.read_head`).
* `Reader.pass`: one pass, from any tokens on; `Reader.pass_cases`: it advances or leaves the loop.
* `Reader.computes_loop`: all passes together read the journal.
* `InnerLoops`: the other loops of a reader.
* `Reader.every_pass_advances`: all of these loops advance.
-/

namespace DoubleEntry

/-! ## Skipping tokens -/

namespace Token

variable {t u : Token} {ts us : List Token}

/-- The tokens behind the next line break. -/
def skipLine : List Token → List Token
  | [] => []
  | t :: ts => if t.kind = .newline then ts else skipLine ts

/-- Whether the tokens begin with the blanks in front of a line. -/
def startsIndented (ts : List Token) : Bool := ts.head?.any (·.kind = .indent)

/-- The tokens behind the rest of a line and the indented lines below it. -/
def recover : List Token → List Token
  | [] => []
  | t :: ts => if t.kind = .newline ∧ startsIndented ts = false then ts else recover ts

/-- The tokens behind so many lines. -/
def skipLines : Nat → List Token → List Token
  | 0, ts => ts
  | n + 1, ts => skipLines n (skipLine ts)

/-- What goes through tokens up to some place gets past the first of them. -/
theorem suffix_of_skips {skip : List Token → List Token} (hnil : skip [] = [])
    (hcons : ∀ t ts, skip (t :: ts) = ts ∨ skip (t :: ts) = skip ts) (ts : List Token) :
    skip ts <:+ ts.tail := by
  induction ts with
  | nil => rw [hnil, List.tail_nil]
  | cons t ts ih =>
    obtain h | h := hcons t ts
    · rw [h, List.tail_cons]
    · rw [h]
      exact ih.trans (List.tail_suffix ts)

theorem skipLine_suffix (ts : List Token) : skipLine ts <:+ ts.tail := by
  refine suffix_of_skips rfl (fun t ts => ?_) ts
  rw [skipLine]
  exact ite_eq_or_eq _ _ _

theorem recover_suffix (ts : List Token) : recover ts <:+ ts.tail := by
  refine suffix_of_skips rfl (fun t ts => ?_) ts
  rw [recover]
  exact ite_eq_or_eq _ _ _

theorem skipLines_suffix (n : Nat) (ts : List Token) : skipLines n ts <:+ ts := by
  induction n generalizing ts with
  | zero => exact List.suffix_rfl
  | succ n ih => exact (ih _).trans ((skipLine_suffix ts).trans (List.tail_suffix ts))

/-- Goes on to the next line break, with a token in each pass. -/
def skipLoop : Loop (List Token) (List Token) where
  pass := fun tokens =>
    match tokens with
    | [] => return .leave []
    | t :: ts => if t.kind = .newline then return .leave ts else return .again ts
  size := List.length

/-- Skips a line in each pass, until one is not indented. -/
def recoverLoop : Loop (List Token) (List Token) where
  pass := fun ts =>
    if startsIndented (skipLine ts) then return .again (skipLine ts)
    else return .leave (skipLine ts)
  size := List.length

theorem recover_eq (ts : List Token) :
    recover ts = if startsIndented (skipLine ts) then recover (skipLine ts) else skipLine ts := by
  induction ts with
  | nil => rfl
  | cons t ts ih =>
    rw [recover, skipLine]
    by_cases ht : t.kind = .newline
    · cases hts : startsIndented ts <;> simp [ht, hts]
    · simpa [ht] using ih

theorem computes_skipLoop : skipLoop.Computes fun ts => pure (skipLine ts) := by
  refine Loop.computes_of_unfolds (fun ts => ?_) fun ts => ?_
  · cases ts with
    | nil => exact Loop.below_leave _
    | cons t ts =>
      simp only [skipLoop]
      split
      · exact Loop.below_leave _
      · exact Loop.below_again (Nat.lt_succ_self _)
  · cases ts with
    | nil => rfl
    | cons t ts =>
      simp only [skipLoop, skipLine]
      split <;> rfl

theorem computes_recoverLoop : recoverLoop.Computes fun ts => pure (recover ts) := by
  refine Loop.computes_of_unfolds (fun ts => ?_) fun ts => ?_
  · simp only [recoverLoop]
    split
    · next hstarts =>
      have hne : skipLine ts ≠ [] := fun hnil => by simp [hnil, startsIndented] at hstarts
      have hpos := List.length_pos_iff.2 hne
      have hlength := (skipLine_suffix ts).length_le
      rw [List.length_tail] at hlength
      exact Loop.below_again (show (skipLine ts).length < ts.length by omega)
    · exact Loop.below_leave _
  · rw [recover_eq]
    simp only [recoverLoop]
    split <;> rfl

/-- Recovering comes to the same place from wherever in front of that place it begins. -/
theorem recover_eq_of_suffix (h : us <:+ ts) (hlt : (recover ts).length < us.length) :
    recover us = recover ts := by
  induction ts with
  | nil => rw [List.suffix_nil.1 h]
  | cons t ts ih =>
    obtain rfl | h := List.suffix_cons_iff.1 h
    · rfl
    · rw [recover] at hlt ⊢
      split
      · next hends =>
        rw [if_pos hends] at hlt
        exact absurd h.length_le (Nat.not_le.2 hlt)
      · next hends =>
        rw [if_neg hends] at hlt
        exact ih h hlt

end Token

/-! ## Where blanks stand -/

namespace Token

variable {t u : Token} {ts us : List Token}

/-- Blanks at the front of a line stand behind a line break, and something stands behind them. -/
structure LaidOut (ts : List Token) : Prop where
  behind : ts.IsChain fun t u => u.kind = .indent → t.kind = .newline
  last : ∀ t ∈ ts.getLast?, t.kind ≠ .indent

theorem LaidOut.suffix (h : LaidOut ts) (hsuffix : us <:+ ts) : LaidOut us := by
  obtain ⟨front, rfl⟩ := hsuffix
  refine ⟨(List.isChain_append.1 h.behind).2.1, fun t ht => h.last t ?_⟩
  rw [List.getLast?_append, ht]
  rfl

theorem LaidOut.cons (h : LaidOut ts) (hlast : ts = [] → t.kind ≠ .indent)
    (hhead : ∀ u ∈ ts.head?, u.kind = .indent → t.kind = .newline) : LaidOut (t :: ts) := by
  refine ⟨List.isChain_cons.2 ⟨hhead, h.behind⟩, ?_⟩
  cases ts with
  | nil =>
    rintro _ ⟨⟩
    exact hlast rfl
  | cons u ts =>
    rw [List.getLast?_cons_cons]
    exact h.last

theorem LaidOut.startsIndented_eq_false (h : LaidOut (t :: ts)) (ht : t.kind ≠ .newline) :
    startsIndented ts = false := by
  cases ts with
  | nil => rfl
  | cons u ts =>
    have hu : u.kind ≠ .indent := fun hu => ht ((List.isChain_cons.1 h.behind).1 u rfl hu)
    simpa [startsIndented] using hu

/-- The tokens of a text are laid out so. -/
theorem laidOut_scanFrom (pos : Cursor) (cs : List Char) : LaidOut (scanFrom pos cs) := by
  induction pos, cs using scanFrom.induct with
  | case1 pos cs h =>
    rw [scanFrom_eq_nil h]
    exact ⟨.nil, by simp⟩
  | case2 pos cs blanks after c rest h kind n hlexeme piece ih =>
    have hkind : kind ≠ .indent := lexeme_ne_indent hlexeme
    have hnext : LaidOut ((pos.advance (cs.takeWhile isBlank) pos.fresh).token kind
        (c :: rest.take n) ::
          scanFrom (pos.next (cs.takeWhile isBlank) (c :: rest.take n) kind) (rest.drop n)) := by
      refine LaidOut.cons ih (fun _ => hkind) fun u hu hindent => ?_
      by_contra hnewline
      have hother : kind ≠ .newline := hnewline
      exact head_scanFrom (by simp [Cursor.next, Cursor.advance, hother]) u hu hindent
    rw [scanFrom_eq h hlexeme]
    simp only [lead]
    split
    · refine LaidOut.cons hnext (by simp) fun u hu hindent => ?_
      obtain rfl := Option.some.inj hu
      exact absurd hindent hkind
    · exact hnext

theorem laidOut_scan (source : String) : LaidOut (scan source) := laidOut_scanFrom _ _

end Token

/-! ## Lines of tokens -/

namespace Line

open Token (skipLine skipLines recover startsIndented LaidOut)

variable {t : Token} {ts : List Token}

/-- Whether blanks stand in front of the line. -/
def isIndented (l : Line) : Bool := l.indent.isSome

theorem ofTokens_cons (t : Token) (ts : List Token) :
    ofTokens (t :: ts) = prepend t (ofTokens ts) := rfl

theorem tail_prepend (hkind : t.kind ≠ .newline) (lines : List Line) :
    (prepend t lines).tail = lines.tail := by
  unfold prepend
  split
  · contradiction
  · rfl
  · rfl
  · rfl

/-- Behind a line are the other lines. -/
theorem ofTokens_skipLine (ts : List Token) : ofTokens (skipLine ts) = (ofTokens ts).tail := by
  induction ts with
  | nil => rfl
  | cons t ts ih =>
    rw [skipLine, ofTokens_cons]
    split
    · next hkind => simp only [prepend, hkind, List.tail_cons]
    · next hkind => rw [ih, tail_prepend hkind]

theorem ofTokens_skipLines (n : Nat) (ts : List Token) :
    ofTokens (skipLines n ts) = (ofTokens ts).drop n := by
  induction n generalizing ts with
  | zero => rfl
  | succ n ih => rw [skipLines, ih, ofTokens_skipLine, List.drop_tail]

theorem ofTokens_eq_nil : ofTokens ts = [] ↔ ts = [] := by
  cases ts with
  | nil => simp [ofTokens]
  | cons t ts => simpa [ofTokens] using prepend_ne_nil t _

/-- Tokens that begin without blanks begin a line without blanks. -/
theorem unindented_ofTokens (h : LaidOut ts) (hstarts : startsIndented ts = false) :
    Unindented (ofTokens ts) := by
  induction ts with
  | nil => simp [Unindented, ofTokens]
  | cons t ts ih =>
    have hindent : t.kind ≠ .indent := by simpa [startsIndented] using hstarts
    rw [ofTokens_cons]
    by_cases hkind : t.kind = .newline
    · exact unindented_prepend_newline hkind _
    · exact (ih (h.suffix (List.suffix_cons t ts)) (h.startsIndented_eq_false hkind)).prepend
        hindent

/-- Tokens that begin with blanks begin an indented line. -/
theorem indented_ofTokens (h : LaidOut ts) (hstarts : startsIndented ts) :
    ∃ l lines, ofTokens ts = l :: lines ∧ l.isIndented := by
  cases ts with
  | nil => cases hstarts
  | cons t ts =>
    have hindent : t.kind = .indent := by simpa [startsIndented] using hstarts
    cases ts with
    | nil => exact absurd hindent (h.last t rfl)
    | cons u us =>
      obtain ⟨l, lines, hlines⟩ := List.exists_cons_of_ne_nil (prepend_ne_nil u (ofTokens us))
      refine ⟨{ l with indent := some t }, lines, ?_, rfl⟩
      have hus : ofTokens (u :: us) = l :: lines := hlines
      rw [ofTokens_cons, hus]
      simp only [prepend, hindent]

theorem dropWhile_indented {lines : List Line} (h : Unindented lines) :
    lines.dropWhile isIndented = lines := by
  cases lines with
  | nil => rfl
  | cons l lines => rw [List.dropWhile_cons_of_neg (by simp [isIndented, h l rfl])]

/-- Behind an entry are the lines behind its indented ones. -/
theorem ofTokens_recover (h : LaidOut ts) :
    ofTokens (recover ts) = (ofTokens ts).tail.dropWhile isIndented := by
  induction ts with
  | nil => rfl
  | cons t ts ih =>
    have hts : LaidOut ts := h.suffix (List.suffix_cons t ts)
    rw [recover, ofTokens_cons]
    by_cases hkind : t.kind = .newline
    · have htail : (prepend t (ofTokens ts)).tail = ofTokens ts := by
        simp only [prepend, hkind, List.tail_cons]
      rw [htail]
      cases hstarts : startsIndented ts with
      | true =>
        obtain ⟨l, lines, hlines, hl⟩ := indented_ofTokens hts hstarts
        rw [if_neg (by simp), ih hts, hlines, List.tail_cons, List.dropWhile_cons_of_pos hl]
      | false =>
        rw [if_pos ⟨hkind, rfl⟩]
        exact (dropWhile_indented (unindented_ofTokens hts hstarts)).symm
    · rw [if_neg (fun hends => hkind hends.1), ih hts, tail_prepend hkind]

end Line

/-! ## What lines say -/

theorem suffix_of_readMetadata {m m' : Metadata} {stop stop' : Nat} {lines leftover : List Line}
    (h : (readMetadata m stop lines).run.value? = some (.ok (m', stop', leftover))) :
    leftover <:+ lines := by
  induction lines generalizing m stop with
  | nil =>
    obtain ⟨-, hrest⟩ := Prod.mk.inj (Checked.pure_eq_ok.1 h)
    obtain ⟨-, rfl⟩ := Prod.mk.inj hrest
    exact List.suffix_rfl
  | cons l lines ih =>
    rw [readMetadata] at h
    split at h
    · obtain ⟨_, -, h⟩ := Checked.bind_eq_ok.1 h
      exact (ih h).trans (List.suffix_cons l lines)
    · split at h
      · obtain ⟨_, -, h⟩ := Checked.bind_eq_ok.1 h
        exact (ih h).trans (List.suffix_cons l lines)
      · obtain ⟨-, hrest⟩ := Prod.mk.inj (Checked.pure_eq_ok.1 h)
        obtain ⟨-, rfl⟩ := Prod.mk.inj hrest
        exact List.suffix_rfl

namespace Block

variable {pushed : Pushed} {b : Block} {s : Step} {l : Line} {lines : List Line}

theorem suffix_of_directive {d : Placed Directive} {leftover : List Line}
    (h : (b.directive pushed).run.value? = some (.ok (d, leftover))) : leftover <:+ b.body := by
  obtain ⟨-, l, m, -, hreads, -⟩ := reads_of_directive h
  generalize d.value.body = body at hreads
  cases hreads with
  | transaction => exact List.nil_suffix
  | statement _ hread => exact suffix_of_readMetadata hread

/-- A block leaves the last of its lines. -/
theorem leftover_suffix (h : (b.step pushed).value? = some s) : s.leftover <:+ b.body := by
  have hreading {α : Type} {r : Reading α} {done : α → Step}
      (hdone : ∀ a, r.run.value? = some (.ok a) → (done a).leftover <:+ b.body)
      (h : (Step.ofReading pushed r done).value? = some s) : s.leftover <:+ b.body := by
    obtain ⟨a, ha, rfl⟩ | ⟨e, rfl⟩ := Step.ofReading_eq h
    · exact hdone a ha
    · exact List.nil_suffix
  have hpush {r : Reading (Pushed × Line)}
      (h : (Step.ofPush pushed r b.body).value? = some s) : s.leftover <:+ b.body := by
    obtain ⟨e, rfl⟩ | ⟨after, rest, -, rfl | ⟨-, e, rfl⟩⟩ := Step.ofPush_cases h
    · exact List.nil_suffix
    · exact List.suffix_rfl
    · exact List.nil_suffix
  unfold step at h
  simp only at h
  split at h
  · obtain rfl := Option.some.inj h
    exact List.suffix_rfl
  · split at h
    · exact hreading (fun _ hread => suffix_of_directive (b := b.uncommented) hread) h
    · exact hreading (fun _ _ => List.suffix_rfl) h
    · exact hreading (fun _ _ => List.suffix_rfl) h
    · exact hreading (fun _ _ => List.suffix_rfl) h
    · exact hpush h
    · exact hpush h
    · exact hpush h
    · exact hpush h
    -- A heading is a line of its own; anything else that starts nothing is an error.
    · obtain rfl := Option.some.inj h
      exact List.suffix_rfl
    · obtain rfl := Option.some.inj h
      exact List.suffix_rfl
    · obtain rfl := Option.some.inj h
      exact List.nil_suffix
    · obtain rfl := Option.some.inj h
      exact List.nil_suffix

/-- What lines say to their end, where something may be pushed in front of them. -/
def read (pushed : Pushed) (lines : List Line) : Checked (List Item) := do
  let before ← stray (ofLines lines).1
  return before.toList ++ (← items pushed (ofLines lines).2)

theorem ofLines_of_indented (h : ∀ l ∈ lines, l.isIndented) : ofLines lines = (lines, []) := by
  induction lines with
  | nil => rfl
  | cons l lines ih =>
    obtain ⟨hl, hlines⟩ := List.forall_mem_cons.1 h
    rw [ofLines, ih hlines]
    exact if_pos hl

theorem unindented_dropWhile (lines : List Line) :
    Line.Unindented (lines.dropWhile Line.isIndented) := by
  intro l hl
  have := List.head?_dropWhile_not Line.isIndented lines
  rw [hl] at this
  simpa [Line.isIndented] using this

/-- Indented lines, and others behind them. -/
theorem ofLines_indented_append {more : List Line} (h : ∀ l ∈ lines, l.isIndented)
    (hmore : Line.Unindented more) : ofLines (lines ++ more) = (lines, (ofLines more).2) := by
  rw [ofLines_append lines hmore, ofLines_of_indented h]
  rfl

theorem ofLines_eq (lines : List Line) :
    ofLines lines = (lines.takeWhile Line.isIndented,
      (ofLines (lines.dropWhile Line.isIndented)).2) := by
  have hparts : ofLines (lines.takeWhile Line.isIndented ++ lines.dropWhile Line.isIndented) = _ :=
    ofLines_indented_append (fun l hl => List.mem_takeWhile_imp hl) (unindented_dropWhile lines)
  rwa [List.takeWhile_append_dropWhile] at hparts

theorem read_of_unindented (h : Line.Unindented lines) :
    read pushed lines = items pushed (ofLines lines).2 := by
  rw [read, ofLines_unindented h]
  exact bind_pure (items pushed (ofLines lines).2)

theorem stray_cons (l : Line) (lines : List Line) :
    stray (l :: lines) = stray [l] >>= fun o =>
      match o with
      | none => stray lines
      | some i => return some i := by
  rw [stray, stray]
  split
  · rw [bind_assoc]
    refine bind_congr fun outcome => ?_
    cases outcome <;> rfl
  · rfl

/-- An indented line says nothing, or else an error at which the others below it are skipped. -/
theorem read_indented (hl : l.isIndented) (lines : List Line) :
    read pushed (l :: lines) = stray [l] >>= fun o =>
      match o with
      | none => read pushed lines
      | some i => do return i :: (← read pushed (lines.dropWhile Line.isIndented)) := by
  have hlines : ofLines (l :: lines) = (l :: (ofLines lines).1, (ofLines lines).2) := by
    rw [ofLines]
    exact if_pos hl
  rw [read, hlines, stray_cons, bind_assoc]
  refine bind_congr fun o => ?_
  cases o with
  | none => rfl
  | some i =>
    rw [read_of_unindented (unindented_dropWhile lines), ofLines_eq lines]
    rfl

/-- A line without blanks in front begins an entry. -/
theorem read_head (hl : l.indent = none) (lines : List Line) :
    read pushed (l :: lines) = do
      let s ← step pushed ⟨l, lines.takeWhile Line.isIndented⟩
      let rest ← read s.pushed (s.leftover ++ lines.dropWhile Line.isIndented)
      return s.item.toList ++ rest := by
  have hlines : ofLines (l :: lines) = ([], ⟨l, (ofLines lines).1⟩ :: (ofLines lines).2) := by
    rw [ofLines]
    exact if_neg (by simp [hl])
  have hunindented : Line.Unindented (l :: lines) := by
    rintro _ ⟨⟩
    exact hl
  rw [read_of_unindented hunindented, hlines, ofLines_eq lines, items]
  refine Checked.bind_congr_of_value fun s hs => ?_
  have hindented : ∀ l ∈ s.leftover, l.isIndented := fun l hl =>
    List.mem_takeWhile_imp ((leftover_suffix hs).subset hl)
  rw [read, ofLines_indented_append hindented (unindented_dropWhile lines)]
  simp

/-- The tokens behind what a step takes of a block: the lines that belong to what was read, or all
lines of the block if there is an error in them. -/
def behind (b : Block) (s : Step) (ts : List Token) : List Token :=
  match s.item with
  | some (.error _) => Token.recover ts
  | _ => Token.skipLines (b.body.length - s.leftover.length + 1) ts

theorem behind_suffix (b : Block) (s : Step) (ts : List Token) : b.behind s ts <:+ ts.tail := by
  unfold behind
  split
  · exact Token.recover_suffix ts
  · exact (Token.skipLines_suffix _ (Token.skipLine ts)).trans (Token.skipLine_suffix ts)

/-- Comments in front of a block are not looked at. -/
theorem step_comment {t : Token} (ht : t.kind = .comment) (l : Line) (body : List Line) :
    step pushed ⟨{ l with tokens := t :: l.tokens }, body⟩ = step pushed ⟨l, body⟩ := by
  have hdrop : (t :: l.tokens).dropWhile (·.kind = .comment) =
      l.tokens.dropWhile (·.kind = .comment) := List.dropWhile_cons_of_pos (by simpa using ht)
  unfold step
  simp only [hdrop]
  rfl

/-- A line break or a comment in front of some lines says nothing. -/
theorem read_tail {ts : List Token} (hlaidOut : Token.LaidOut ts)
    (hends : ts.head?.any Token.endsLine) :
    read pushed (Line.ofTokens ts) = read pushed (Line.ofTokens ts.tail) := by
  obtain ⟨t, ht, hends⟩ := (Option.any_eq_true _ _).1 hends
  obtain ⟨ts, rfl⟩ := List.head?_eq_some_iff.1 ht
  have hkind : t.kind = .newline ∨ t.kind = .comment := by
    cases hkind : t.kind <;> simp_all [Token.endsLine]
  rw [Line.ofTokens_cons, List.tail_cons]
  obtain hkind | hkind := hkind
  · have hprepend : Line.prepend t (Line.ofTokens ts) = ⟨none, [], t.span⟩ :: Line.ofTokens ts := by
      simp only [Line.prepend, hkind]
    rw [hprepend, read_head rfl]
    -- The empty line leaves the indented lines below it.
    refine Eq.trans (bind_pure (read pushed _)) ?_
    exact congrArg (read pushed) List.takeWhile_append_dropWhile
  · have hunindented : Line.Unindented (Line.ofTokens ts) :=
      Line.unindented_ofTokens (hlaidOut.suffix (List.suffix_cons t ts))
        (hlaidOut.startsIndented_eq_false (by simp [hkind]))
    cases hlines : Line.ofTokens ts with
    | nil =>
      have hstep : step pushed ⟨⟨none, [t], .empty t.span.stop⟩, []⟩ = pure (.skip pushed []) :=
        step_comment hkind ⟨none, [], .empty t.span.stop⟩ []
      rw [Line.prepend_nil (by simp [hkind]), read_head rfl, List.takeWhile_nil, hstep]
      rfl
    | cons l lines =>
      have hl : l.indent = none := hunindented l (by rw [hlines]; rfl)
      have hprepend : Line.prepend t (l :: lines) =
          { l with tokens := t :: l.tokens } :: lines := by
        simp only [Line.prepend, hkind]
      rw [hprepend, read_head hl, read_head (l := { l with tokens := t :: l.tokens }) hl,
        step_comment hkind]

theorem ofTokens_behind {ts : List Token} (hlaidOut : Token.LaidOut ts)
    (hlines : Line.ofTokens ts = l :: lines)
    (h : (step pushed ⟨l, lines.takeWhile Line.isIndented⟩).value? = some s) :
    Line.ofTokens (behind ⟨l, lines.takeWhile Line.isIndented⟩ s ts) =
      s.leftover ++ lines.dropWhile Line.isIndented := by
  have hleftover : s.leftover <:+ lines.takeWhile Line.isIndented := leftover_suffix h
  unfold behind
  split
  · next e he =>
    rw [(step_of h).leftover_eq he, Line.ofTokens_recover hlaidOut, hlines]
    rfl
  · have hdrop : (lines.takeWhile Line.isIndented ++ lines.dropWhile Line.isIndented).drop
        ((lines.takeWhile Line.isIndented).length - s.leftover.length) =
          s.leftover ++ lines.dropWhile Line.isIndented := by
      rw [List.drop_append_of_le_length (Nat.sub_le _ _), ← List.suffix_iff_eq_drop.1 hleftover]
    rw [List.takeWhile_append_dropWhile] at hdrop
    rwa [Line.ofTokens_skipLines, hlines, List.drop_succ_cons]

end Block

/-! ## The loop over a text -/

/-- What a reader of a text has before it and what it has read: the tokens that are left, what is
pushed and the items. -/
structure Reader where
  tokens : List Token
  laidOut : Token.LaidOut tokens
  pushed : Pushed := {}
  items : List Item := []

namespace Reader

variable {r r' : Reader}

/-- The reader of a text, in front of its first token. -/
def start (source : String) : Reader where
  tokens := Token.scan source
  laidOut := Token.laidOut_scan source

/-- The reader at some later tokens, with one item more or not. -/
def goTo (r : Reader) (ts : List Token) (h : ts <:+ r.tokens.tail) (pushed : Pushed)
    (item : Option Item) : Reader :=
  ⟨ts, r.laidOut.suffix (h.trans (List.tail_suffix _)), pushed, r.items ++ item.toList⟩

/-- One pass. A line break or a comment is skipped; an indented line belongs to nothing, and is
skipped if it says nothing; and any other line begins an entry. From an error the reader recovers
behind the indented lines below it. -/
def pass (r : Reader) : Checked (Pass Reader Journal) :=
  match Line.ofTokens r.tokens with
  | [] => return .leave ⟨r.items ++ r.pushed.unclosed.map .error⟩
  | l :: lines =>
    if r.tokens.head?.any Token.endsLine then
      return .again (r.goTo r.tokens.tail List.suffix_rfl r.pushed none)
    else if l.isIndented then do
      match ← Block.stray [l] with
      | none =>
        return .again (r.goTo (Token.skipLine r.tokens) (Token.skipLine_suffix _) r.pushed none)
      | some i =>
        return .again (r.goTo (Token.recover r.tokens) (Token.recover_suffix _) r.pushed (some i))
    else do
      let b : Block := ⟨l, lines.takeWhile Line.isIndented⟩
      let s ← b.step r.pushed
      return .again (r.goTo (b.behind s r.tokens) (b.behind_suffix s _) s.pushed s.item)

/-- What the reader comes to in the end. -/
def journal (r : Reader) : Checked Journal := do
  return ⟨r.items ++ (← Block.read r.pushed (Line.ofTokens r.tokens))⟩

theorem journal_start (source : String) : (start source).journal = Journal.ofText source := by
  simp [journal, start, Block.read, Journal.ofText, Journal.ofTokens]

/-- The reader comes to the same after a pass. -/
theorem journal_eq (r : Reader) :
    r.journal = r.pass >>= fun p =>
      match p with
      | .again r => r.journal
      | .leave j => return j := by
  cases hlines : Line.ofTokens r.tokens with
  | nil =>
    simp only [pass, hlines, journal]
    rfl
  | cons l lines =>
    simp only [pass, hlines]
    split
    · -- A line break or a comment says nothing.
      next hends =>
      rw [journal, Block.read_tail r.laidOut hends]
      simp [journal, goTo]
    · split
      · next hl =>
        rw [journal, hlines, Block.read_indented hl, bind_assoc, bind_assoc]
        refine bind_congr fun o => ?_
        cases o with
        | none =>
          simp [journal, goTo, Line.ofTokens_skipLine, hlines]
        | some i =>
          simp [journal, goTo, Line.ofTokens_recover r.laidOut, hlines]
      · -- An entry leaves some of the lines below it; they are read by later passes.
        next hl =>
        have hnone : l.indent = none := by simpa [Line.isIndented] using hl
        rw [journal, hlines, Block.read_head hnone, bind_assoc, bind_assoc]
        refine Checked.bind_congr_of_value fun s hs => ?_
        simp [journal, goTo, Block.ofTokens_behind r.laidOut hlines hs]

/-- What a pass that goes on comes to: it gets past the first token and adds an item or not, and
behind an error it goes on where the reader recovers. -/
structure Advances (r r' : Reader) : Prop where
  tokens : r.tokens ≠ []
  behind : r'.tokens <:+ r.tokens.tail
  items : ∃ item : Option Item, r'.items = r.items ++ item.toList ∧
    ∀ e, item = some (.error e) → r'.tokens = Token.recover r.tokens

theorem advances_goTo (hne : r.tokens ≠ []) {ts : List Token} (hts : ts <:+ r.tokens.tail)
    (pushed : Pushed) {item : Option Item}
    (herror : ∀ e, item = some (.error e) → ts = Token.recover r.tokens) :
    r.Advances (r.goTo ts hts pushed item) :=
  ⟨hne, hts, item, rfl, herror⟩

/-- A pass leaves the loop at the end of the tokens, or it advances. -/
theorem pass_cases {p : Pass Reader Journal} (h : r.pass.value? = some p) :
    (r.tokens = [] ∧ ∃ j, p = .leave j) ∨ ∃ r', p = .again r' ∧ r.Advances r' := by
  cases hlines : Line.ofTokens r.tokens with
  | nil =>
    simp only [pass, hlines] at h
    exact .inl ⟨Line.ofTokens_eq_nil.1 hlines, _, (Option.some.inj h).symm⟩
  | cons l lines =>
    have hne : r.tokens ≠ [] := fun hnil => by simp [hnil, Line.ofTokens] at hlines
    refine .inr ?_
    simp only [pass, hlines] at h
    split at h
    · exact ⟨_, (Option.some.inj h).symm, advances_goTo hne _ _ (by simp)⟩
    · split at h
      · rw [Checked.value?_bind, Option.bind_eq_some_iff] at h
        obtain ⟨o, -, h⟩ := h
        cases o with
        | none => exact ⟨_, (Option.some.inj h).symm, advances_goTo hne _ _ (by simp)⟩
        | some i => exact ⟨_, (Option.some.inj h).symm, advances_goTo hne _ _ fun _ _ => rfl⟩
      · rw [Checked.value?_bind, Option.bind_eq_some_iff] at h
        obtain ⟨s, -, h⟩ := h
        refine ⟨_, (Option.some.inj h).symm, advances_goTo hne _ _ fun e he => ?_⟩
        simp only [Block.behind, he]

/-- The loop over the entries of a text. -/
def loop : Loop Reader Journal where
  pass := fun r => liftM r.pass
  size := fun r => r.tokens.length

/-- As many passes as there are tokens come to the end, where one more pass leaves the loop. -/
theorem computes_loop : loop.Computes fun r => liftM r.journal := by
  refine Loop.computes_of_unfolds (fun r r' h => ?_) fun r => ?_
  · obtain ⟨-, j, hp⟩ | ⟨r'', hp, hadvances⟩ := pass_cases (r := r) (by simpa [loop] using h)
    · cases hp
    · cases hp
      have hlength := hadvances.behind.length_le
      have hpos := List.length_pos_iff.2 hadvances.tokens
      rw [List.length_tail] at hlength
      simp only [loop]
      omega
  · rw [journal_eq, liftM_bind]
    refine bind_congr fun p => ?_
    cases p <;> rfl

end Reader

/-! ## All loops -/

/-- The loops other than the one over a text: each pass of one of them advances or leaves the loop,
and what the loop is left with is what is read. -/
structure InnerLoops : Prop where
  skipLine : Token.skipLoop.Computes fun ts => pure (Token.skipLine ts)
  recover : Token.recoverLoop.Computes fun ts => pure (Token.recover ts)
  products : Line.productsLoop.Computes fun (l, a) => Line.forget (l.moreProducts a)
  factors : Line.factorsLoop.Computes fun (l, a) => Line.forget (l.moreFactors a)
  cost : ∀ double, (Line.costLoop double).Computes fun (l, cost) => l.costComponents double cost
  values : Line.valuesLoop.Computes fun (l, seen) =>
    (fun (vs, rest) => (seen ++ vs, rest)) <$> l.values
  currencies : Line.currenciesLoop.Computes fun (l, seen) =>
    (fun (cs, rest) => (seen ++ cs, rest)) <$> l.moreCurrencies
  metadata : metadataLoop.Computes fun (m, stop, lines) => readMetadata m stop lines
  strings : Draft.stringsLoop.Computes fun (l, seen) => Draft.readStrings l seen
  tags : Draft.tagsLoop.Computes fun (d, l) => pure (d.readTags l)
  /-- The first line of a transaction is read by the loops over its strings and its tags. -/
  head : ∀ flag l, Draft.readHead flag l = do
    let (strings, rest) ← Draft.readStrings l []
    let (d, rest) := Draft.readTags { transaction := Draft.headOf flag strings } rest
    rest.finish
    return d
  lines : Draft.linesLoop.Computes fun (d, lines) => lines.foldlM Draft.readLine d
  /-- Lines are counted by tokens: there are no more of them. -/
  length : ∀ ts, (Line.ofTokens ts).length ≤ ts.length

theorem innerLoops : InnerLoops where
  skipLine := Token.computes_skipLoop
  recover := Token.computes_recoverLoop
  products := Line.computes_productsLoop
  factors := Line.computes_factorsLoop
  cost := Line.computes_costLoop
  values := Line.computes_valuesLoop
  currencies := Line.computes_currenciesLoop
  metadata := computes_metadataLoop
  strings := Draft.computes_stringsLoop
  tags := Draft.computes_tagsLoop
  head := Draft.readHead_eq
  lines := Draft.computes_linesLoop
  length := Line.length_ofTokens_le

namespace Reader

/-- All loops advance. A pass over a text, from wherever in it, gets past the next token and adds at
most one item, and so the journal of the text is there after at most as many passes as it has
tokens. Recovering from an error comes to the same place from wherever in the entry it begins. In
the other loops each pass advances or leaves. -/
theorem every_pass_advances (source : String) :
    (∀ (r : Reader) p, r.pass.value? = some p →
      (r.tokens = [] ∧ ∃ j, p = .leave j) ∨ ∃ r', p = .again r' ∧ r.Advances r') ∧
    loop.passes ((Token.scan source).length + 1) (start source) =
      Pass.leave <$> (liftM (Journal.ofText source) : Reading Journal) ∧
    (∀ ts us : List Token, us <:+ ts → (Token.recover ts).length < us.length →
      Token.recover us = Token.recover ts) ∧
    InnerLoops := by
  refine ⟨fun r p => pass_cases, ?_, fun ts us => Token.recover_eq_of_suffix, innerLoops⟩
  rw [← journal_start]
  exact computes_loop.leaves (start source) _ (Nat.lt_succ_self _)

/-- A transaction with a string too many, and a text that ends in the middle of its posting. -/
def brokenOff : String := "2024-01-02 * \"Shop\" \"Food\" \"Tax\"\n  Assets:Cash 5 +"

theorem every_pass_advances_brokenOff :
    (Token.scan brokenOff).length = 10 ∧
      (∃ r', (start brokenOff).pass.value? = some (.again r') ∧ r'.tokens = [] ∧
        (start brokenOff).Advances r') ∧
      loop.passes 11 (start brokenOff) =
        pure (.leave ⟨[.error ⟨.expected .tagOrLink "\"Tax\"", ⟨27, 32⟩⟩]⟩) := by
  obtain ⟨hpasses, hall, -⟩ := every_pass_advances brokenOff
  have hlength : (Token.scan brokenOff).length = 10 := by decide +kernel
  have hjournal : Journal.ofText brokenOff =
      .exact ⟨[.error ⟨.expected .tagOrLink "\"Tax\"", ⟨27, 32⟩⟩]⟩ := by decide +kernel
  refine ⟨hlength, ?_, ?_⟩
  · obtain ⟨p, hp, hend⟩ := (Option.any_eq_true _ _).1
      (show (start brokenOff).pass.value?.any fun p =>
        match p with
        | .again r => r.tokens = []
        | .leave _ => false by decide +kernel)
    obtain ⟨hnil, -⟩ | ⟨r', rfl, hadvances⟩ := hpasses _ p hp
    · exact absurd hnil (List.ne_nil_of_length_pos (by rw [start, hlength]; decide))
    · exact ⟨r', hp, of_decide_eq_true hend, hadvances⟩
  · rw [hlength, hjournal] at hall
    exact hall

end Reader

end DoubleEntry
