import DoubleEntry.Journal.Basic
import DoubleEntry.Proofs.Journal.RelocatedEntry

/-!
# Blocks at other places

What the blocks of a text add does not depend on where they stand, and a block is read without
looking at the others: all it takes from them is what is pushed.

* `Item.Relocated`: an item at its new place.
* `Block.step_relocates`: one block adds its items wherever it stands.
* `Block.items_relocates`: so do all blocks.
-/

namespace DoubleEntry

variable {r : Relocation}

/-! ## Items -/

/-- The option line at its new place. -/
def OptionLine.relocated (r : Relocation) (o : OptionLine) : OptionLine :=
  { o with span := o.span.relocated r }

/-- The include line at its new place. -/
def IncludeLine.relocated (r : Relocation) (i : IncludeLine) : IncludeLine :=
  { i with span := i.span.relocated r }

/-- The plugin line at its new place. -/
def PluginLine.relocated (r : Relocation) (p : PluginLine) : PluginLine :=
  { p with span := p.span.relocated r }

/-- The keys that are written below the first line of the block in which a token starts. -/
def Block.WritesBelow (blocks : List Block) (start : Nat) (key : String) : Prop :=
  ∃ b ∈ blocks, (∃ t ∈ b.head.tokens, t.span.start = start) ∧ b.Writes key

/-- The item at its new place. -/
inductive Item.Relocated (r : Relocation) (written : Nat → String → Prop) : Item → Item → Prop
  | directive {d e : Placed Directive} (h : d.Relocated r (written d.span.start) e) :
    Relocated r written (.directive d) (.directive e)
  | option (o : OptionLine) : Relocated r written (.option o) (.option (o.relocated r))
  | inclusion (i : IncludeLine) : Relocated r written (.inclusion i) (.inclusion (i.relocated r))
  | plugin (p : PluginLine) : Relocated r written (.plugin p) (.plugin (p.relocated r))
  | error (e : SyntaxError) : Relocated r written (.error e) (.error (e.relocated r))

/-! ## Lines other than directives -/

namespace Line

/-- An option line says the same wherever it stands. -/
theorem option_relocates (l : Line) (start : Span) :
    Relocates r (fun o o' => o' = o.relocated r) (l.option start)
      ((l.relocated r).option (start.relocated r)) := by
  refine bind_rest (string_relocates l) fun key rest => ?_
  refine bind_rest (string_relocates rest) fun value rest' => ?_
  refine (finish_relocates rest').bind fun _ _ _ => ?_
  refine .pure ?_
  rw [OptionLine.relocated, here_relocated, Span.relocated_merge]

/-- An include line leads to the same path wherever it stands. -/
theorem inclusion_relocates (l : Line) (start : Span) :
    Relocates r (fun i i' => i' = i.relocated r) (l.inclusion start)
      ((l.relocated r).inclusion (start.relocated r)) := by
  refine bind_rest (string_relocates l) fun path rest => ?_
  refine (finish_relocates rest).bind fun _ _ _ => ?_
  refine .pure ?_
  rw [IncludeLine.relocated, here_relocated, Span.relocated_merge]

theorem plugin_relocates (l : Line) (start : Span) :
    Relocates r (fun p p' => p' = p.relocated r) (l.plugin start)
      ((l.relocated r).plugin (start.relocated r)) := by
  refine bind_rest (string_relocates l) fun name rest => ?_
  refine bind_rest (string?_relocates rest) fun config rest' => ?_
  refine (finish_relocates rest').bind fun _ _ _ => ?_
  refine .pure ?_
  rw [PluginLine.relocated, Span.relocated_merge, nextKind?_relocated, here_relocated,
    here_relocated]
  split <;> rfl

end Line

/-! ## Pushes and pops -/

namespace Pushed

/-- Which element is erased depends on what the predicate sees of it. -/
theorem eraseLast?_map {α β : Type} (f : α → β) (p : β → Bool) (as : List α) :
    eraseLast? p (as.map f) = (eraseLast? (p ∘ f) as).map (List.map f) := by
  induction as with
  | nil => rfl
  | cons a as ih =>
    rw [List.map_cons, eraseLast?, eraseLast?, ih]
    cases eraseLast? (p ∘ f) as with
    | some rest => rfl
    | none => cases h : p (f a) <;> simp [h]

theorem relocated_pushTag (pushed : Pushed) (tag : String) (span : Span) :
    (pushed.pushTag tag span).relocated r =
      (pushed.relocated r).pushTag tag (span.relocated r) := by
  simp [pushTag, relocated]

theorem relocated_pushMetadata (pushed : Pushed) (key : String) (value : MetaValue) (span : Span) :
    (pushed.pushMetadata key value span).relocated r =
      (pushed.relocated r).pushMetadata key value (span.relocated r) := by
  simp [pushMetadata, relocated]

/-- A pop finds its push by the tag, not by its place. -/
theorem popTag?_relocated (pushed : Pushed) (tag : String) :
    (pushed.relocated r).popTag? tag = (pushed.popTag? tag).map (relocated r) := by
  unfold popTag? relocated
  rw [eraseLast?_map, Function.comp_def]
  cases eraseLast? (fun e => decide (e.1 = tag)) pushed.tags <;> rfl

/-- A pop finds its push by the key, not by its place. -/
theorem popMetadata?_relocated (pushed : Pushed) (key : String) :
    (pushed.relocated r).popMetadata? key = (pushed.popMetadata? key).map (relocated r) := by
  unfold popMetadata? relocated
  rw [eraseLast?_map, Function.comp_def]
  cases eraseLast? (fun e => decide (e.1 = key)) pushed.metadata <;> rfl

theorem signedName_relocated (t : Token) :
    Line.signedName (t.relocated r) = Line.signedName t := rfl

theorem keyName_relocated (t : Token) : Line.keyName (t.relocated r) = Line.keyName t := rfl

/-- What is pushed, with its places relocated, and the rest of the line. -/
theorem readPushTag_relocates (pushed : Pushed) (l : Line) :
    Relocates r (Line.Rest r fun p q => q = p.relocated r) (pushed.readPushTag l)
      ((pushed.relocated r).readPushTag (l.relocated r)) := by
  refine (Line.token_relocates l _ _).bind ?_
  rintro ⟨t, rest⟩ ⟨_, _⟩ ⟨rfl, rfl⟩
  exact .pure ⟨(relocated_pushTag ..).symm, rfl⟩

theorem readPopTag_relocates (pushed : Pushed) (l : Line) :
    Relocates r (Line.Rest r fun p q => q = p.relocated r) (pushed.readPopTag l)
      ((pushed.relocated r).readPopTag (l.relocated r)) := by
  refine (Line.token_relocates l _ _).bind ?_
  rintro ⟨t, rest⟩ ⟨_, _⟩ ⟨rfl, rfl⟩
  dsimp only
  rw [signedName_relocated, popTag?_relocated]
  cases pushed.popTag? (Line.signedName t) with
  | some popped => exact .pure ⟨rfl, rfl⟩
  | none => exact .throw _

theorem readPushMetadata_relocates (pushed : Pushed) (l : Line) :
    Relocates r (Line.Rest r fun p q => q = p.relocated r) (pushed.readPushMetadata l)
      ((pushed.relocated r).readPushMetadata (l.relocated r)) := by
  refine (Line.token_relocates l _ _).bind ?_
  rintro ⟨t, rest⟩ ⟨_, _⟩ ⟨rfl, rfl⟩
  refine Line.bind_rest (Line.value_relocates rest) fun value rest' => ?_
  refine (Line.finish_relocates rest').bind fun _ _ _ => ?_
  exact .pure ⟨(relocated_pushMetadata ..).symm, rfl⟩

theorem readPopMetadata_relocates (pushed : Pushed) (l : Line) :
    Relocates r (Line.Rest r fun p q => q = p.relocated r) (pushed.readPopMetadata l)
      ((pushed.relocated r).readPopMetadata (l.relocated r)) := by
  refine (Line.token_relocates l _ _).bind ?_
  rintro ⟨t, rest⟩ ⟨_, _⟩ ⟨rfl, rfl⟩
  dsimp only
  rw [keyName_relocated, popMetadata?_relocated]
  cases pushed.popMetadata? (Line.keyName t) with
  | some popped => exact .pure ⟨rfl, rfl⟩
  | none => exact .throw _

/-- The pushes that stay open are the same, and they are reported at their new places. -/
theorem unclosed_relocated (pushed : Pushed) :
    (pushed.relocated r).unclosed = pushed.unclosed.map (SyntaxError.relocated r) := by
  rw [unclosed, unclosed, relocated, List.map_append, List.map_map, List.map_map, List.map_map,
    List.map_map]
  rfl

end Pushed

/-! ## Steps -/

variable {written : Nat → String → Prop}

namespace Step

/-- The step with all it adds at its new place. -/
structure Relocated (r : Relocation) (written : Nat → String → Prop) (s s' : Step) : Prop where
  item : List.Forall₂ (Item.Relocated r written) s.item.toList s'.item.toList
  pushed : s'.pushed = s.pushed.relocated r
  leftover : s'.leftover = s.leftover.map (Line.relocated r)

/-- Lines that are left out are the same lines at their new places. -/
theorem skip_relocated (pushed : Pushed) (leftover : List Line) :
    Relocated r written (skip pushed leftover)
      (skip (pushed.relocated r) (leftover.map (Line.relocated r))) where
  item := .nil
  pushed := rfl
  leftover := rfl

theorem fail_relocated (pushed : Pushed) (e : SyntaxError) :
    Relocated r written (fail pushed e) (fail (pushed.relocated r) (e.relocated r)) where
  item := .cons (.error e) .nil
  pushed := rfl
  leftover := rfl

/-- Steps made from readings that are alike are alike. -/
theorem ofReading_relocates {α β : Type} {R : α → β → Prop} {x : Reading α} {y : Reading β}
    {done : α → Step} {done' : β → Step} (pushed : Pushed) (h : Relocates r R x y)
    (hdone : ∀ a b, R a b → Relocated r written (done a) (done' b)) :
    Checked.Rel (Relocated r written) (ofReading pushed x done)
      (ofReading (pushed.relocated r) y done') := by
  refine Checked.Rel.bind h fun o o' ho => ?_
  cases ho with
  | ok h => exact .exact (hdone _ _ h)
  | error e => exact .exact (fail_relocated pushed e)

theorem ofPush_relocates {x y : Reading (Pushed × Line)} (pushed : Pushed)
    (h : Relocates r (Line.Rest r fun p q => q = p.relocated r) x y) (leftover : List Line) :
    Checked.Rel (Relocated r written) (ofPush pushed x leftover)
      (ofPush (pushed.relocated r) y (leftover.map (Line.relocated r))) := by
  refine Checked.Rel.bind h fun o o' ho => ?_
  cases ho with
  | ok h =>
    rename_i p q
    obtain ⟨after, rest⟩ := p
    obtain ⟨_, _⟩ := q
    obtain ⟨rfl, rfl⟩ := h
    exact ofReading_relocates after (Line.finish_relocates rest) fun _ _ _ =>
      skip_relocated after leftover
  | error e => exact .exact (fail_relocated pushed e)

end Step

namespace Block

/-- The place of an indented line. -/
theorem place_relocated (l : Line) :
    (l.relocated r).indent.elim (l.relocated r).here (·.span) =
      (l.indent.elim l.here (·.span)).relocated r := by
  obtain ⟨_ | t, tokens, ending⟩ := l
  · exact Line.here_relocated _
  · rfl

/-- Stray lines are reported wherever they stand. -/
theorem stray_relocates (written : Nat → String → Prop) (lines : List Line) :
    Checked.Rel (fun i i' => List.Forall₂ (Item.Relocated r written) i.toList i'.toList)
      (stray lines) (stray (lines.map (Line.relocated r))) := by
  induction lines with
  | nil => exact .exact .nil
  | cons l lines ih =>
    rw [List.map_cons, stray, stray, Line.atEnd_relocated, place_relocated]
    split
    · refine Checked.Rel.bind (Line.finish_relocates l) fun o o' ho => ?_
      cases ho with
      | ok h => exact ih
      | error e => exact .exact (.cons (.error e) .nil)
    · exact .exact (.cons (.error _) .nil)

/-- A block whose indented lines stay as far in as they are adds the same wherever it stands, but
for the lines that its metadata records. -/
theorem step_relocates (pushed : Pushed) (b : Block)
    (hwritten : ∀ t ∈ b.head.tokens, ∀ key, b.Writes key → written t.span.start key)
    (hindent : ∀ l ∈ b.body, l.KeepsIndent r) :
    Checked.Rel (Step.Relocated r written) (b.step pushed)
      ((b.relocated r).step (pushed.relocated r)) := by
  obtain ⟨⟨indent, tokens, ending⟩, body⟩ := b
  have hcomments : (tokens.map (Token.relocated r)).dropWhile (·.kind = .comment) =
      (tokens.dropWhile (·.kind = .comment)).map (Token.relocated r) := by
    rw [List.dropWhile_map]
    rfl
  have hsub : ∀ t ∈ tokens.dropWhile (·.kind = .comment), t ∈ tokens :=
    fun t ht => (List.dropWhile_sublist _).subset ht
  simp only [step, relocated, Line.relocated, hcomments]
  generalize tokens.dropWhile (·.kind = .comment) = ts at hsub
  obtain _ | ⟨⟨kind, span, place, text⟩, ts⟩ := ts
  · exact .exact (Step.skip_relocated pushed body)
  · cases kind with
    | date =>
      have hbody := hwritten _ (hsub _ List.mem_cons_self)
      refine Step.ofReading_relocates pushed
        (directive_relocates pushed ⟨⟨indent, _, ending⟩, body⟩ hbody hindent) ?_
      rintro ⟨d, leftover⟩ ⟨e, _⟩ ⟨hd, hstart, rfl⟩
      refine ⟨.cons (.directive ?_) .nil, rfl, rfl⟩
      rw [hstart]
      exact hd
    | star | flag => exact .exact (Step.skip_relocated pushed body)
    | error => exact .exact (Step.fail_relocated pushed _)
    | keyword k =>
      let rest : Line := ⟨indent, ts, ending⟩
      cases k with
      | option =>
        refine Step.ofReading_relocates pushed (Line.option_relocates rest span) ?_
        rintro o _ rfl
        exact ⟨.cons (.option o) .nil, rfl, rfl⟩
      | inclusion =>
        refine Step.ofReading_relocates pushed (Line.inclusion_relocates rest span) ?_
        rintro i _ rfl
        exact ⟨.cons (.inclusion i) .nil, rfl, rfl⟩
      | plugin =>
        refine Step.ofReading_relocates pushed (Line.plugin_relocates rest span) ?_
        rintro p _ rfl
        exact ⟨.cons (.plugin p) .nil, rfl, rfl⟩
      | pushTag =>
        exact Step.ofPush_relocates pushed (Pushed.readPushTag_relocates pushed rest) body
      | popTag => exact Step.ofPush_relocates pushed (Pushed.readPopTag_relocates pushed rest) body
      | pushMeta =>
        exact Step.ofPush_relocates pushed (Pushed.readPushMetadata_relocates pushed rest) body
      | popMeta =>
        exact Step.ofPush_relocates pushed (Pushed.readPopMetadata_relocates pushed rest) body
      | _ => exact .exact (Step.fail_relocated pushed _)
    | _ => exact .exact (Step.fail_relocated pushed _)

/-- The blocks of a text add the same wherever they stand, one after the other. -/
theorem items_relocates (pushed : Pushed) (blocks : List Block)
    (hwritten : ∀ b ∈ blocks, ∀ t ∈ b.head.tokens, ∀ key, b.Writes key →
      written t.span.start key)
    (hindent : ∀ b ∈ blocks, ∀ l ∈ b.body, l.KeepsIndent r) :
    Checked.Rel (List.Forall₂ (Item.Relocated r written)) (items pushed blocks)
      (items (pushed.relocated r) (blocks.map (relocated r))) := by
  induction blocks generalizing pushed with
  | nil =>
    refine .exact ?_
    rw [Pushed.unclosed_relocated, List.map_map, List.forall₂_map_left_iff,
      List.forall₂_map_right_iff]
    exact List.forall₂_same.2 fun e _ => .error e
  | cons b blocks ih =>
    obtain ⟨hb, hblocks⟩ := List.forall_mem_cons.1 hindent
    refine (step_relocates pushed b (hwritten b List.mem_cons_self) hb).bind fun s s' hs => ?_
    rw [hs.pushed, hs.leftover]
    refine (stray_relocates written s.leftover).bind fun after after' hafter => ?_
    refine (ih s.pushed (fun b hb => hwritten b (List.mem_cons_of_mem _ hb)) hblocks).bind
      fun items items' hitems => ?_
    exact .exact (List.rel_append (List.rel_append hs.item hafter) hitems)

end Block

end DoubleEntry
