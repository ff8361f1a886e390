import DoubleEntry.Proofs.Journal.PushKeys
import DoubleEntry.Proofs.Journal.ReadsEntry

/-!
# What reading a text ends with

All that a ledger text says, and all errors in it, are at places of its lines, and a directive
records the line on which it starts. Reading it fails only on arithmetic that does not fit.

* `Item.On`: an item at a place of some lines.
* `Block.step_ends`: what a block adds is on its lines.
* `Journal.ofTokens_ends`: what a text says is on its lines.
-/

namespace DoubleEntry

/-- The lines of a block. -/
def Block.lines (b : Block) : List Line := b.head :: b.body

variable {l l' : Line} {lines : List Line}

/-! ## Lines other than directives -/

namespace Line

variable {E : ArithmeticError → Prop} {start : Span}

/-- The range of an option line starts at one of its tokens. -/
theorem option_reads (h : l'.Within l) (hstart : l.Holds start) :
    Reads (fun o => l.Holds o.span) l.Blames E (l'.option start) := by
  refine (string_reads h).bind fun ⟨key, rest⟩ h => ?_
  have hspan := hstart.merge (rest.isPlace_here.of_within h).holds
  refine (string_reads h).bind fun _ h => ?_
  exact (finish_reads h).bind fun _ _ => .pure hspan

theorem inclusion_reads (h : l'.Within l) (hstart : l.Holds start) :
    Reads (fun i => l.Holds i.span) l.Blames E (l'.inclusion start) := by
  have hspan := hstart.merge (l'.isPlace_here.of_within h).holds
  refine (string_reads h).bind fun _ h => ?_
  exact (finish_reads h).bind fun _ _ => .pure hspan

/-- So does the range of a plugin line, with a configuration or without one. -/
theorem plugin_reads (h : l'.Within l) (hstart : l.Holds start) :
    Reads (fun p => l.Holds p.span) l.Blames E (l'.plugin start) := by
  have hname := (l'.isPlace_here.of_within h).holds
  refine (string_reads h).bind fun ⟨name, rest⟩ h => ?_
  have hlast : l.Holds (if rest.nextKind? = some .string then rest.here else l'.here) := by
    split
    · exact (rest.isPlace_here.of_within h).holds
    · exact hname
  refine (string?_reads h).bind fun _ h => ?_
  exact (finish_reads h).bind fun _ _ => .pure (hstart.merge hlast)

end Line

/-! ## Pushes and pops -/

namespace Pushed

variable {pushed : Pushed} {E : ArithmeticError → Prop}

/-- The places of the pushes. -/
def spans (pushed : Pushed) : List Span := pushed.tags.map (·.2) ++ pushed.metadata.map (·.2.2)

/-- All pushes are on the lines. -/
def On (pushed : Pushed) (lines : List Line) : Prop :=
  ∀ span ∈ pushed.spans, Line.SomePlace lines span

theorem on_empty (lines : List Line) : ({} : Pushed).On lines := by simp [On, spans]

theorem On.pushTag (h : pushed.On lines) (tag : String) {span : Span}
    (hspan : Line.SomePlace lines span) : (pushed.pushTag tag span).On lines := by
  intro s hs
  simp only [spans, Pushed.pushTag, List.map_append, List.mem_append, List.map_cons, List.map_nil,
    List.mem_singleton] at hs
  rcases hs with (hs | rfl) | hs
  · exact h s (List.mem_append_left _ hs)
  · exact hspan
  · exact h s (List.mem_append_right _ hs)

theorem On.pushMetadata (h : pushed.On lines) (key : String) (value : MetaValue) {span : Span}
    (hspan : Line.SomePlace lines span) : (pushed.pushMetadata key value span).On lines := by
  intro s hs
  simp only [spans, Pushed.pushMetadata, List.map_append, List.mem_append, List.map_cons,
    List.map_nil, List.mem_singleton] at hs
  rcases hs with hs | hs | rfl
  · exact h s (List.mem_append_left _ hs)
  · exact h s (List.mem_append_right _ hs)
  · exact hspan

/-- What stays pushed was pushed on the lines before. -/
theorem On.popTag {pushed' : Pushed} (h : pushed.On lines) {tag : String}
    (hpop : pushed.popTag? tag = some pushed') : pushed'.On lines := by
  obtain ⟨tags, htags, hpop⟩ := Option.bind_eq_some_iff.1 hpop
  obtain rfl := Option.some.inj hpop
  intro s hs
  refine h s ?_
  simp only [spans, List.mem_append] at hs ⊢
  exact hs.imp_left fun hs => List.map_subset _ (subset_of_eraseLast? htags) hs

theorem On.popMetadata {pushed' : Pushed} (h : pushed.On lines) {key : String}
    (hpop : pushed.popMetadata? key = some pushed') : pushed'.On lines := by
  obtain ⟨metadata, hmetadata, hpop⟩ := Option.bind_eq_some_iff.1 hpop
  obtain rfl := Option.some.inj hpop
  intro s hs
  refine h s ?_
  simp only [spans, List.mem_append] at hs ⊢
  exact hs.imp_right fun hs => List.map_subset _ (subset_of_eraseLast? hmetadata) hs

/-- What a push or a pop on a line ends with. -/
def LeavesOn (lines : List Line) (l : Line) (r : Reading (Pushed × Line)) : Prop :=
  Reads (fun p => p.1.On lines ∧ p.2.Within l) l.Blames l.Overflows r

/-- A tag that is pushed remembers a place of its line. -/
theorem readPushTag_reads (hpushed : pushed.On lines) (h : l'.Within l) (hl : l ∈ lines) :
    LeavesOn lines l (pushed.readPushTag l') :=
  (Line.token_reads h (by decide) _).bind fun _ h =>
    .pure ⟨hpushed.pushTag _ ⟨l, hl, .of_mem h.1⟩, h.2⟩

theorem readPopTag_reads (hpushed : pushed.On lines) (h : l'.Within l) :
    LeavesOn lines l (pushed.readPopTag l') := by
  refine (Line.token_reads h (by decide) _).bind fun ⟨t, rest⟩ h => ?_
  cases hpop : pushed.popTag? (Line.signedName t) with
  | none =>
    simp only [hpop]
    exact .throw (.of_mem h.1 nofun)
  | some pushed' =>
    simp only [hpop]
    exact .pure ⟨hpushed.popTag hpop, h.2⟩

/-- A key that is pushed remembers a place of its line. -/
theorem readPushMetadata_reads (hpushed : pushed.On lines) (h : l'.Within l) (hl : l ∈ lines) :
    LeavesOn lines l (pushed.readPushMetadata l') := by
  refine (Line.token_reads h (by decide) _).bind fun ⟨t, rest⟩ ht => ?_
  refine (Line.value_reads ht.2).bind fun ⟨value, rest⟩ h => ?_
  refine (Line.finish_reads h).bind fun _ _ => ?_
  exact .pure ⟨hpushed.pushMetadata _ value ⟨l, hl, .of_mem ht.1⟩, h⟩

theorem readPopMetadata_reads (hpushed : pushed.On lines) (h : l'.Within l) :
    LeavesOn lines l (pushed.readPopMetadata l') := by
  refine (Line.token_reads h (by decide) _).bind fun ⟨t, rest⟩ h => ?_
  cases hpop : pushed.popMetadata? (Line.keyName t) with
  | none =>
    simp only [hpop]
    exact .throw (.of_mem h.1 nofun)
  | some pushed' =>
    simp only [hpop]
    exact .pure ⟨hpushed.popMetadata hpop, h.2⟩

/-- A push that stays open is reported where it was written. -/
theorem somePlace_of_mem_unclosed (hpushed : pushed.On lines) {e : SyntaxError}
    (he : e ∈ pushed.unclosed) : Line.SomePlace lines e.span := by
  refine hpushed _ ?_
  simp only [unclosed, List.mem_append, List.mem_map] at he
  simp only [spans, List.mem_append, List.mem_map]
  rcases he with ⟨tag, htag, rfl⟩ | ⟨entry, hentry, rfl⟩
  · exact .inl ⟨tag, htag, rfl⟩
  · exact .inr ⟨entry, hentry, rfl⟩

end Pushed

/-! ## Blocks -/

/-- The item is at a place of some lines. A directive starts at a token of one of them, and its
metadata tells the line of it. -/
def Item.On (lines : List Line) : Item → Prop
  | .directive d => ∃ l ∈ lines, ∃ t ∈ l.tokens, d.StartsAt t
  | .option o => Line.SomeHolds lines o.span
  | .inclusion i => Line.SomeHolds lines i.span
  | .plugin p => Line.SomeHolds lines p.span
  | .error e => Line.SomeHolds lines e.span

/-- The same, where the range of an error is that of a token or of the end of one of the lines. -/
def Item.PlacedOn (lines : List Line) : Item → Prop
  | .error e => Line.SomePlace lines e.span
  | i => i.On lines

theorem Item.PlacedOn.on {i : Item} (h : i.PlacedOn lines) : i.On lines := by
  cases i with
  | error e => exact Line.SomePlace.holds h
  | _ => exact h

/-- The same for an item that lines add themselves: an error in it is found on one of them. -/
def Item.SaidOn (lines : List Line) : Item → Prop
  | .error e => Line.SomeBlames lines e
  | i => i.On lines

/-- Blame is at a place. -/
theorem Item.SaidOn.placedOn {i : Item} (h : i.SaidOn lines) : i.PlacedOn lines := by
  cases i with
  | error e =>
    obtain ⟨l, hl, he⟩ := h
    exact ⟨l, hl, he.span⟩
  | _ => exact h

theorem Item.SaidOn.on {i : Item} (h : i.SaidOn lines) : i.On lines := h.placedOn.on

/-- No block says that a push stays open; that is said once, at the end of the text. -/
theorem Item.SaidOn.cause_ne {e : SyntaxError} (h : (Item.error e).SaidOn lines) (key : PushKey) :
    e.cause ≠ .unclosedPush key := by
  obtain ⟨l, -, he⟩ := h
  exact he.cause key

/-- What a block adds is on the lines, its pushes are, and the lines left are below its first. -/
structure Step.On (lines : List Line) (b : Block) (s : Step) : Prop where
  item : ∀ i ∈ s.item, i.SaidOn lines
  pushed : s.pushed.On lines
  leftover : s.leftover ⊆ b.body

namespace Step

variable {pushed : Pushed} {b : Block} {E : ArithmeticError → Prop}

/-- Lines that are left out leave the pushes as they are. -/
theorem on_skip (h : pushed.On lines) : (skip pushed b.body).On lines b :=
  ⟨by simp [skip], h, List.Subset.refl _⟩

/-- An error about a line leaves the pushes as they are, and nothing of its block. -/
theorem on_fail (h : pushed.On lines) {e : SyntaxError} (he : Line.SomeBlames lines e) :
    (fail pushed e).On lines b where
  item := by
    rintro i ⟨⟩
    exact he
  pushed := h
  leftover := List.nil_subset _

/-- A step made from a reading blames one of the lines or goes on with what was read. -/
theorem ofReading_ends {α : Type} {P : α → Prop} {r : Reading α} {done : α → Step}
    (hr : Reads P (Line.SomeBlames lines) E r) (h : pushed.On lines)
    (hdone : ∀ a, P a → (done a).On lines b) : (ofReading pushed r done).Ends (On lines b) E := by
  refine Checked.Ends.bind hr fun outcome houtcome => ?_
  cases outcome with
  | ok a => exact .exact (hdone a houtcome)
  | error e => exact .exact (on_fail h houtcome)

/-- A push or pop that is read changes the pushes before the rest of its line is looked at. -/
theorem ofPush_ends {r : Reading (Pushed × Line)} (hr : Pushed.LeavesOn lines l r)
    (hl : l ∈ lines) (h : pushed.On lines) :
    (ofPush pushed r b.body).Ends (On lines b) (Line.SomeOverflows lines) := by
  refine Checked.Ends.bind (hr.of_mem hl) fun outcome houtcome => ?_
  cases outcome with
  | ok p =>
    exact ofReading_ends ((Line.finish_reads houtcome.2).of_mem hl) houtcome.1 fun _ _ =>
      on_skip houtcome.1
  | error e => exact .exact (on_fail h houtcome)

end Step

namespace Block

variable {pushed : Pushed} {E : ArithmeticError → Prop}

/-- Of the stray lines, the first with more than a comment is to blame. -/
theorem stray_ends (below : List Line) (h : below ⊆ lines) :
    (stray below).Ends (fun o => ∀ i ∈ o, i.SaidOn lines) E := by
  induction below with
  | nil => exact .exact (by simp)
  | cons l below ih =>
    obtain ⟨hl, hbelow⟩ := List.cons_subset.1 h
    rw [stray]
    split
    · have hfinish := Line.finish_reads (E := E) (.refl l)
      refine Checked.Ends.bind hfinish fun outcome houtcome => ?_
      cases outcome with
      | ok _ => exact ih hbelow
      | error e =>
        refine .exact ?_
        rintro i ⟨⟩
        exact ⟨l, hl, houtcome⟩
    · refine .exact ?_
      rintro i ⟨⟩
      refine ⟨l, hl, ?_, nofun⟩
      cases hindent : l.indent with
      | none => exact l.isPlace_here
      | some t => exact .inl ⟨t, by simp [hindent], rfl⟩

/-- What one block adds is on its own lines, and it fails only if an expression there does. -/
theorem step_ends (b : Block) (hlines : b.lines ⊆ lines) (h : pushed.On lines) :
    (b.step pushed).Ends (Step.On lines b) (Line.SomeOverflows lines) := by
  obtain ⟨hl, hbody⟩ := List.cons_subset.1 hlines
  have hhead : (b.head.withTokens (b.head.tokens.dropWhile (·.kind = .comment))).Within b.head := by
    refine ⟨rfl, ⟨_, List.takeWhile_append_dropWhile.symm, fun t ht hkind => ?_⟩, rfl⟩
    have hcomment := List.mem_takeWhile_imp ht
    simp [hkind] at hcomment
  have hmem {t : Token} (ht : t ∈ b.head.tokens.dropWhile (·.kind = .comment)) :
      t ∈ b.head.tokens := (List.dropWhile_sublist _).subset ht
  unfold step
  generalize hdrop : b.head.withTokens (b.head.tokens.dropWhile (·.kind = .comment)) = head at hhead
  simp only
  split
  · exact .exact (Step.on_skip h)
  · rename_i t ts htokens
    have htail (hkind : t.kind ≠ .error) : (head.withTokens ts).Within b.head :=
      (Line.within_tail htokens hkind).trans hhead
    have ht : t ∈ b.head.tokens := Line.mem_of_within hhead (by simp [htokens])
    have hspan : b.head.Holds t.span := (Line.IsPlace.of_mem ht).holds
    cases hkind : t.kind with
    | date =>
      have hread := directive_reads pushed (b := { b with head }) htokens hhead hl hbody
      refine Step.ofReading_ends hread h fun p hp => ⟨?_, h, hp.2⟩
      rintro i ⟨⟩
      exact ⟨b.head, hl, t, ht, hp.1.starts⟩
    | keyword k =>
      have hrest := htail (by simp [hkind])
      cases k with
      | option =>
        refine Step.ofReading_ends ((Line.option_reads hrest hspan).of_mem hl) h fun o ho => ?_
        refine ⟨?_, h, List.Subset.refl _⟩
        rintro i ⟨⟩
        exact ⟨b.head, hl, ho⟩
      | inclusion =>
        refine Step.ofReading_ends ((Line.inclusion_reads hrest hspan).of_mem hl) h fun o ho => ?_
        refine ⟨?_, h, List.Subset.refl _⟩
        rintro i ⟨⟩
        exact ⟨b.head, hl, ho⟩
      | plugin =>
        refine Step.ofReading_ends ((Line.plugin_reads hrest hspan).of_mem hl) h fun o ho => ?_
        refine ⟨?_, h, List.Subset.refl _⟩
        rintro i ⟨⟩
        exact ⟨b.head, hl, ho⟩
      | pushTag => exact Step.ofPush_ends (Pushed.readPushTag_reads h hrest hl) hl h
      | popTag => exact Step.ofPush_ends (Pushed.readPopTag_reads h hrest) hl h
      | pushMeta => exact Step.ofPush_ends (Pushed.readPushMetadata_reads h hrest hl) hl h
      | popMeta => exact Step.ofPush_ends (Pushed.readPopMetadata_reads h hrest) hl h
      | _ => exact .exact (Step.on_fail h ⟨b.head, hl, (head.blames_unexpected _).of_within hhead⟩)
    | star | flag => exact .exact (Step.on_skip h)
    | error => exact .exact (Step.on_fail h ⟨b.head, hl, .of_mem ht nofun⟩)
    | _ => exact .exact (Step.on_fail h ⟨b.head, hl, (head.blames_unexpected _).of_within hhead⟩)

/-- Block after block, what is added and what is pushed stays on the lines. -/
theorem items_ends (blocks : List Block) (hlines : ∀ b ∈ blocks, b.lines ⊆ lines)
    (h : pushed.On lines) :
    (items pushed blocks).Ends (fun items => ∀ i ∈ items, i.PlacedOn lines)
      (Line.SomeOverflows lines) := by
  induction blocks generalizing pushed with
  | nil =>
    refine .exact fun i hi => ?_
    obtain ⟨e, he, rfl⟩ := List.mem_map.1 hi
    exact Pushed.somePlace_of_mem_unclosed h he
  | cons b blocks ih =>
    obtain ⟨hb, hblocks⟩ := List.forall_mem_cons.1 hlines
    rw [items]
    refine (step_ends b hb h).bind fun s hs => ?_
    have hleft : s.leftover ⊆ lines := fun l hl => hb (List.mem_cons_of_mem _ (hs.leftover hl))
    refine (stray_ends s.leftover hleft).bind fun after hafter => ?_
    refine (ih hblocks hs.pushed).bind fun later hlater => .exact ?_
    simp only [List.mem_append, Option.mem_toList]
    rintro i ((hi | hi) | hi)
    · exact (hs.item i hi).placedOn
    · exact (hafter i hi).placedOn
    · exact hlater i hi

/-- Lines are those in front of the first block, then those of the blocks. -/
theorem eq_append_ofLines (lines : List Line) :
    lines = (ofLines lines).1 ++ (ofLines lines).2.flatMap Block.lines := by
  induction lines with
  | nil => rfl
  | cons l lines ih =>
    rw [ofLines]
    simp only
    split
    · rw [List.cons_append, ← ih]
    · rw [List.nil_append, List.flatMap_cons, Block.lines, List.cons_append, ← ih]

/-- Blocks are made of the lines of the text. -/
theorem mem_of_mem_lines {lines : List Line} {b : Block} (hb : b ∈ (ofLines lines).2) {l : Line}
    (hl : l ∈ b.lines) : l ∈ lines := by
  rw [eq_append_ofLines lines]
  exact List.mem_append_right _ (List.mem_flatMap.2 ⟨b, hb, hl⟩)

end Block

/-- All that a text says is at places of its lines. Reading it fails only if an expression on one of
its lines does. -/
theorem Journal.ofTokens_ends (tokens : List Token) :
    (Journal.ofTokens tokens).Ends (fun j => ∀ i ∈ j.items, i.PlacedOn (Line.ofTokens tokens))
      (Line.SomeOverflows (Line.ofTokens tokens)) := by
  unfold ofTokens
  have hlines := Block.eq_append_ofLines (Line.ofTokens tokens)
  have hblocks : ∀ b ∈ (Block.ofLines (Line.ofTokens tokens)).2, b.lines ⊆ Line.ofTokens tokens :=
    fun b hb _ => Block.mem_of_mem_lines hb
  generalize Line.ofTokens tokens = lines at hlines hblocks ⊢
  generalize Block.ofLines lines = parts at hlines hblocks
  obtain ⟨leading, blocks⟩ := parts
  have hleading : leading ⊆ lines := by
    rw [hlines]
    exact List.subset_append_left _ _
  refine (Block.stray_ends leading hleading).bind fun before hbefore => ?_
  refine (Block.items_ends blocks hblocks (Pushed.on_empty lines)).bind fun items hitems => ?_
  refine .exact ?_
  simp only [List.mem_append, Option.mem_toList]
  rintro i (hi | hi)
  · exact (hbefore i hi).placedOn
  · exact hitems i hi

end DoubleEntry
