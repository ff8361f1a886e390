import DoubleEntry.Proofs.Journal.Moved
import DoubleEntry.Proofs.Sample

/-!
# Two texts, one after the other

A text that ends with a line break and leaves nothing pushed can be read on its own: the journal of
the text with another one after it has the items of both, those of the other at their new places. So
an error in one of them changes nothing that is read from the other.

* `Line.ofTokens_append`, `Block.ofLines_append`, `Block.items_append`: lines, blocks and items of
  two texts.
* `Journal.ofText_append`: the journal of two texts.
-/

namespace DoubleEntry

theorem Checked.Rel.value? {α β : Type} {R : α → β → Prop} {x : Checked α} {y : Checked β}
    (h : Rel R x y) {a : α} (ha : x.value? = some a) : ∃ b, y.value? = some b ∧ R a b := by
  cases h with
  | exact h => exact ⟨_, rfl, Option.some.inj ha ▸ h⟩
  | rounded h => exact ⟨_, rfl, Option.some.inj ha ▸ h⟩
  | error e => cases ha

variable {r : Relocation} {m : Motion}

/-! ## Lines -/

namespace Line

variable {t : Token} {ts : List Token}

/-- A token in front of lines goes to the first of them, whatever lines come after. -/
theorem prepend_append (t : Token) (l : Line) (lines more : List Line) :
    prepend t (l :: lines ++ more) = prepend t (l :: lines) ++ more := by
  unfold prepend
  cases t.kind <;> rfl

theorem prepend_nil (h : t.kind ≠ .newline) : prepend t [] = [⟨none, [t], .empty t.span.stop⟩] := by
  unfold prepend
  cases hkind : t.kind with
  | newline => exact absurd hkind h
  | _ => rfl

theorem prepend_ne_nil (t : Token) (lines : List Line) : prepend t lines ≠ [] := by
  unfold prepend
  split <;> simp

/-- Tokens in front of a line do not reach the lines after it. -/
theorem foldr_prepend_append (ts : List Token) (l : Line) (more : List Line) :
    ts.foldr prepend (l :: more) = ts.foldr prepend [l] ++ more := by
  induction ts with
  | nil => rfl
  | cons t ts ih =>
    rw [List.foldr_cons, List.foldr_cons, ih]
    cases h : ts.foldr prepend [l] with
    | nil =>
      cases ts with
      | nil => cases h
      | cons t' ts => exact absurd h (prepend_ne_nil _ _)
    | cons l' lines => exact prepend_append t l' lines more

/-- A line break ends a line, whatever comes after it. -/
theorem ofTokens_append (hlast : ts.getLast? = some t) (hkind : t.kind = .newline)
    (more : List Token) : ofTokens (ts ++ more) = ofTokens ts ++ ofTokens more := by
  obtain ⟨ts, rfl⟩ := List.getLast?_eq_some_iff.1 hlast
  have hprepend (lines : List Line) : prepend t lines = ⟨none, [], t.span⟩ :: lines := by
    simp only [prepend, hkind]
  simp only [ofTokens, List.append_assoc, List.foldr_append, List.foldr_cons, List.foldr_nil,
    List.singleton_append, hprepend]
  exact foldr_prepend_append ts _ _

theorem prepend_relocated (t : Token) (lines : List Line) :
    prepend (t.relocated r) (lines.map (relocated r)) = (prepend t lines).map (relocated r) := by
  unfold prepend
  rw [kind_relocated]
  cases lines <;> cases t.kind <;> rfl

/-- Lines are told from the kinds of tokens, not from their places. -/
theorem ofTokens_relocated (ts : List Token) :
    ofTokens (ts.map (Token.relocated r)) = (ofTokens ts).map (relocated r) := by
  induction ts with
  | nil => rfl
  | cons t ts ih =>
    rw [List.map_cons, ofTokens, List.foldr_cons, ← ofTokens, ih, prepend_relocated]
    rfl

/-- The lines of two texts. -/
theorem ofTokens_scan_append {source : String} (h : Token.EndsLine source) (more : String) :
    ofTokens (Token.scan (source ++ more)) =
      ofTokens (Token.scan source) ++
        (ofTokens (Token.scan more)).map (relocated (Motion.past source).relocation) := by
  have happend := Token.scan_append h more
  obtain ⟨t, hlast, hkind, -⟩ := h
  rw [happend, ofTokens_append hlast hkind, Token.moved_eq, ofTokens_relocated]

/-- No blanks stand in front of the first line. -/
def Unindented (lines : List Line) : Prop := ∀ l ∈ lines.head?, l.indent = none

theorem unindented_prepend_newline (h : t.kind = .newline) (lines : List Line) :
    Unindented (prepend t lines) := by
  simp [Unindented, prepend, h]

/-- Lines stay without indentation in front of them when more is put on the first one. -/
theorem Unindented.prepend {lines : List Line} (h : Unindented lines) (hkind : t.kind ≠ .indent) :
    Unindented (Line.prepend t lines) := by
  unfold Line.prepend
  split
  · simp [Unindented]
  · contradiction
  · simpa [Unindented] using h
  · simp [Unindented]

theorem Unindented.relocated {lines : List Line} (h : Unindented lines) (r : Relocation) :
    Unindented (lines.map (Line.relocated r)) := by
  cases lines with
  | nil => exact h
  | cons l lines =>
    rintro _ ⟨⟩
    simp only [Line.relocated, h l rfl, Option.map_none]

end Line

namespace Token

open Line (Unindented ofTokens)

/-- After a token of a line, no blanks are found in front of a first one. -/
theorem head_scanFrom {pos : Cursor} {cs : List Char} (hfresh : pos.fresh = false) :
    ∀ t ∈ (scanFrom pos cs).head?, t.kind ≠ .indent := by
  cases h : cs.dropWhile isBlank with
  | nil => simp [scanFrom_eq_nil h]
  | cons c rest =>
    have hlexeme : lexeme c rest = ((lexeme c rest).1, (lexeme c rest).2) := rfl
    rw [scanFrom_eq h hlexeme]
    simp only [lead, hfresh]
    rintro t ⟨⟩
    exact lexeme_ne_indent hlexeme

theorem unindented_scanFrom {pos : Cursor} {cs : List Char}
    (hhead : ∀ t ∈ (scanFrom pos cs).head?, t.kind ≠ .indent) :
    Unindented (ofTokens (scanFrom pos cs)) := by
  induction pos, cs using scanFrom.induct with
  | case1 pos cs h => simp [scanFrom_eq_nil h, ofTokens, Unindented]
  | case2 pos cs blanks after c rest h kind n hlexeme piece ih =>
    have hlead : lead pos (cs.takeWhile isBlank) kind = [] := by
      refine if_neg fun hif => ?_
      rw [scanFrom_eq h hlexeme] at hhead
      simp only [lead, if_pos hif] at hhead
      exact hhead _ rfl rfl
    rw [scanFrom_eq h hlexeme]
    simp only [hlead, List.nil_append]
    by_cases hkind : kind = .newline
    · exact Line.unindented_prepend_newline hkind _
    · refine (ih (head_scanFrom ?_)).prepend (lexeme_ne_indent hlexeme)
      simp [Cursor.advance, hkind]

end Token

/-! ## Blocks -/

namespace Pushed

variable (pushed : Pushed)

theorem cause_of_mem_unclosed {e : SyntaxError} (h : e ∈ pushed.unclosed) :
    ∃ key, e.cause = .unclosedPush key := by
  simp only [unclosed, List.mem_append, List.mem_map] at h
  obtain ⟨_, -, rfl⟩ | ⟨_, -, rfl⟩ := h
  · exact ⟨_, rfl⟩
  · exact ⟨_, rfl⟩

/-- If no push stays open, nothing is pushed. -/
theorem eq_empty_of_unclosed (h : pushed.unclosed = []) : pushed = {} := by
  obtain ⟨htags, hmetadata⟩ := List.append_eq_nil_iff.1 h
  obtain ⟨tags, metadata⟩ := pushed
  rw [List.map_eq_nil_iff] at htags hmetadata
  rw [show tags = [] from htags, show metadata = [] from hmetadata]

end Pushed

namespace Block

/-- Blocks end where a line begins without blanks. -/
theorem ofLines_append (lines : List Line) {more : List Line} (h : Line.Unindented more) :
    ofLines (lines ++ more) = ((ofLines lines).1, (ofLines lines).2 ++ (ofLines more).2) := by
  induction lines with
  | nil =>
    cases more with
    | nil => rfl
    | cons l more =>
      have hindent : l.indent = none := h l rfl
      simp [ofLines, hindent]
  | cons l lines ih =>
    rw [List.cons_append, ofLines, ofLines, ih]
    cases l.indent.isSome <;> rfl

theorem ofLines_unindented {lines : List Line} (h : Line.Unindented lines) :
    (ofLines lines).1 = [] := by
  cases lines with
  | nil => rfl
  | cons l lines =>
    have hindent : l.indent = none := h l rfl
    simp [ofLines, hindent]

theorem ofLines_relocated (lines : List Line) :
    ofLines (lines.map (Line.relocated r)) =
      ((ofLines lines).1.map (Line.relocated r), (ofLines lines).2.map (relocated r)) := by
  induction lines with
  | nil => rfl
  | cons l lines ih =>
    rw [List.map_cons, ofLines, ofLines, ih]
    obtain ⟨_ | t, tokens, ending⟩ := l <;> rfl

/-- Blocks after which nothing is pushed do not change what the blocks after them add. -/
theorem items_append {pushed : Pushed} {blocks more : List Block} {before after : List Item}
    (h : (items pushed blocks).value? = some before)
    (hclosed : ∀ e, .error e ∈ before → ∀ key, e.cause ≠ .unclosedPush key)
    (hmore : (items {} more).value? = some after) :
    (items pushed (blocks ++ more)).value? = some (before ++ after) := by
  induction blocks generalizing pushed before with
  | nil =>
    obtain rfl := Option.some.inj h
    have hunclosed : pushed.unclosed = [] := by
      refine List.eq_nil_iff_forall_not_mem.2 fun e he => ?_
      obtain ⟨key, hkey⟩ := pushed.cause_of_mem_unclosed he
      exact hclosed e (List.mem_map_of_mem he) key hkey
    rw [hunclosed, pushed.eq_empty_of_unclosed hunclosed]
    exact hmore
  | cons b blocks ih =>
    rw [List.cons_append]
    simp only [items, Checked.value?_bind, Option.bind_eq_some_iff] at h ⊢
    obtain ⟨s, hs, stray, hstray, rest, hrest, hbefore⟩ := h
    obtain rfl := Option.some.inj hbefore
    refine ⟨s, hs, stray, hstray, rest ++ after, ?_, ?_⟩
    · exact ih hrest fun e he => hclosed e (List.mem_append_right _ he)
    · simp

end Block

/-! ## Journals -/

namespace Journal

variable {written : Nat → String → Prop} {items items' : List Item}

/-- Directives move with their items, each to its new place. -/
theorem directives_moved (h : List.Forall₂ (Item.Moved m written) items items') :
    List.Forall₂ (fun d e => d.Moved m (written d.span.start) e) (directives ⟨items⟩)
      (directives ⟨items'⟩) := by
  induction h with
  | nil => exact .nil
  | cons hi _ ih =>
    cases hi with
    | directive h => exact .cons h ih
    | _ => exact ih

/-- Items of a kind that are only moved. -/
theorem filterMap_moved {α : Type} {select : Item → Option α} {move : α → α}
    (hselect : ∀ i i', Item.Moved m written i i' → select i' = (select i).map move)
    (h : List.Forall₂ (Item.Moved m written) items items') :
    items'.filterMap select = (items.filterMap select).map move := by
  induction h with
  | nil => rfl
  | @cons i i' _ _ hi _ ih =>
    rw [List.filterMap_cons, List.filterMap_cons, hselect i i' hi]
    cases select i with
    | none => exact ih
    | some a => exact congrArg (move a :: ·) ih

theorem options_moved (h : List.Forall₂ (Item.Moved m written) items items') :
    options ⟨items'⟩ = (options ⟨items⟩).map (OptionLine.moved m) :=
  filterMap_moved (fun _ _ hi => by cases hi <;> rfl) h

theorem inclusions_moved (h : List.Forall₂ (Item.Moved m written) items items') :
    inclusions ⟨items'⟩ = (inclusions ⟨items⟩).map (IncludeLine.moved m) :=
  filterMap_moved (fun _ _ hi => by cases hi <;> rfl) h

theorem plugins_moved (h : List.Forall₂ (Item.Moved m written) items items') :
    plugins ⟨items'⟩ = (plugins ⟨items⟩).map (PluginLine.moved m) :=
  filterMap_moved (fun _ _ hi => by cases hi <;> rfl) h

theorem errors_moved (h : List.Forall₂ (Item.Moved m written) items items') :
    errors ⟨items'⟩ = (errors ⟨items⟩).map (SyntaxError.moved m) :=
  filterMap_moved (fun _ _ hi => by cases hi <;> rfl) h

theorem mem_errors {j : Journal} {e : SyntaxError} : e ∈ j.errors ↔ .error e ∈ j.items := by
  simp only [errors, List.mem_filterMap]
  constructor
  · rintro ⟨i, hi, he⟩
    cases i with
    | error => exact Option.some.inj he ▸ hi
    | _ => cases he
  · exact fun h => ⟨_, h, rfl⟩

/-- The keys that a text writes below the line in which a token starts. -/
def WritesBelow (source : String) : Nat → String → Prop :=
  Block.WritesBelow (Block.ofLines (Line.ofTokens (Token.scan source))).2

/-- A journal is what stray lines and blocks add. -/
theorem value?_ofTokens {ts : List Token} {j : Journal} :
    (ofTokens ts).value? = some j ↔
      ∃ before items, (Block.stray (Block.ofLines (Line.ofTokens ts)).1).value? = some before ∧
        (Block.items {} (Block.ofLines (Line.ofTokens ts)).2).value? = some items ∧
        ⟨before.toList ++ items⟩ = j := by
  simp only [ofTokens, Checked.value?_bind, Option.bind_eq_some_iff, Checked.pure_eq,
    Checked.value?_exact, Option.some.injEq, exists_and_left]

variable {s₁ s₂ : String} {j₁ j₂ : Journal}

/-- After a text that closes its pushes, another one adds what it says alone, at its new place. -/
theorem value?_ofText_append (hline : Token.EndsLine s₁) (h₁ : (ofText s₁).value? = some j₁)
    (hclosed : ∀ e ∈ j₁.errors, ∀ key, e.cause ≠ .unclosedPush key)
    (hindent : ∀ t ∈ (Token.scan s₂).head?, t.kind ≠ .indent)
    (h₂ : (ofText s₂).value? = some j₂) :
    ∃ items, (ofText (s₁ ++ s₂)).value? = some ⟨j₁.items ++ items⟩ ∧
      List.Forall₂ (Item.Moved (.past s₁) (WritesBelow s₂)) j₂.items items := by
  obtain ⟨before, items₁, hbefore, hitems₁, rfl⟩ := value?_ofTokens.1 h₁
  obtain ⟨none?, items₂, hnone, hitems₂, rfl⟩ := value?_ofTokens.1 h₂
  -- The lines of the second text do not start with blanks, so its blocks are blocks of both.
  have hunindented : Line.Unindented (Line.ofTokens (Token.scan s₂)) :=
    Token.unindented_scanFrom hindent
  rw [Block.ofLines_unindented hunindented] at hnone
  obtain rfl := Option.some.inj hnone
  have hmoves : Checked.Rel (List.Forall₂ (Item.Moved (.past s₁) (WritesBelow s₂)))
      (Block.items {} (Block.ofLines (Line.ofTokens (Token.scan s₂))).2)
      (Block.items {} ((Block.ofLines (Line.ofTokens (Token.scan s₂))).2.map
        (Block.relocated (Motion.past s₁).relocation))) :=
    Block.items_moves {} _ fun b hb t ht key hkey => ⟨b, hb, ⟨t, ht, rfl⟩, hkey⟩
  obtain ⟨items, hitems, hmoved⟩ := hmoves.value? hitems₂
  have hblocks :=
    Block.ofLines_append (Line.ofTokens (Token.scan s₁))
      (hunindented.relocated (Motion.past s₁).relocation)
  rw [← Line.ofTokens_scan_append hline, Block.ofLines_relocated] at hblocks
  refine ⟨items, value?_ofTokens.2 ⟨before, items₁ ++ items, ?_, ?_, ?_⟩, hmoved⟩
  · rw [hblocks]
    exact hbefore
  · rw [hblocks]
    refine Block.items_append hitems₁ (fun e he => hclosed e ?_) hitems
    exact mem_errors.2 (List.mem_append_right _ he)
  · rw [List.append_assoc]

/-- What is read from two texts is what is read from either, the second at its new place. -/
theorem ofText_append (hline : Token.EndsLine s₁) (h₁ : (ofText s₁).value? = some j₁)
    (hclosed : ∀ e ∈ j₁.errors, ∀ key, e.cause ≠ .unclosedPush key)
    (hindent : ∀ t ∈ (Token.scan s₂).head?, t.kind ≠ .indent)
    (h₂ : (ofText s₂).value? = some j₂) :
    ∃ j ds, (ofText (s₁ ++ s₂)).value? = some j ∧
      j.directives = j₁.directives ++ ds ∧
      List.Forall₂ (fun d e => d.Moved (.past s₁) (WritesBelow s₂ d.span.start) e)
        j₂.directives ds ∧
      j.options = j₁.options ++ j₂.options.map (OptionLine.moved (.past s₁)) ∧
      j.inclusions = j₁.inclusions ++ j₂.inclusions.map (IncludeLine.moved (.past s₁)) ∧
      j.plugins = j₁.plugins ++ j₂.plugins.map (PluginLine.moved (.past s₁)) ∧
      j.errors = j₁.errors ++ j₂.errors.map (SyntaxError.moved (.past s₁)) := by
  obtain ⟨items, hj, hmoved⟩ := value?_ofText_append hline h₁ hclosed hindent h₂
  refine ⟨_, directives ⟨items⟩, hj, List.filterMap_append, directives_moved hmoved, ?_, ?_, ?_, ?_⟩
  · rw [← options_moved hmoved]
    exact List.filterMap_append
  · rw [← inclusions_moved hmoved]
    exact List.filterMap_append
  · rw [← plugins_moved hmoved]
    exact List.filterMap_append
  · rw [← errors_moved hmoved]
    exact List.filterMap_append

/-- A transaction in ledger text. -/
def rentText : String := "2024-01-02 * \"Rent\"\n  Assets:Cash\n"

/-- The transaction where nothing stands in front of it. -/
def rent : Placed Directive where
  value :=
    { date := .afterNewYear 1
      metadata := ({} : Metadata).setLine 1
      body := .transaction
        { narration := "Rent"
          postings := [{ account := "Assets:Cash", metadata := ({} : Metadata).setLine 2 }] } }
  span := ⟨0, 34⟩

/-- Text that says nothing does not keep the transaction after it from being read. -/
theorem ofText_append_rent :
    ∃ j ds, (ofText ("oops\n" ++ rentText)).value? = some j ∧
      j.directives = [] ++ ds ∧
      List.Forall₂ (fun d e => d.Moved (.past "oops\n") (WritesBelow rentText d.span.start) e)
        [rent] ds ∧
      j.options = [] ∧ j.inclusions = [] ∧ j.plugins = [] ∧
      j.errors = [⟨.unexpectedInput "oops", ⟨0, 4⟩⟩] := by
  have hline : Token.EndsLine "oops\n" :=
    ⟨⟨.newline, ⟨4, 5⟩, 1, "\n"⟩, by decide +kernel, rfl, by decide +kernel⟩
  have h₁ : (ofText "oops\n").value? = some ⟨[.error ⟨.unexpectedInput "oops", ⟨0, 4⟩⟩]⟩ := by
    decide +kernel
  have h₂ : (ofText rentText).value? = some ⟨[.directive rent]⟩ := by decide +kernel
  exact ofText_append hline h₁ (by simp [errors]) (by decide +kernel) h₂

end Journal

end DoubleEntry
