import DoubleEntry.Proofs.Journal.Composition
import DoubleEntry.Proofs.Journal.PushKeys
import DoubleEntry.Proofs.Journal.ReadsBlock

/-!
# What a block says on its own

A block is read without looking at the others; all it takes from them is what is pushed. So the
journal of a text is made of what its blocks say on their own, where nothing is pushed, and there is
one unless a block fails on arithmetic.

* `Placed.Completed`: what pushed tags and metadata add to a directive.
* `Block.step_completed`: what is pushed changes nothing else.
* `Journal.exists_ofText_iff`: when a text has a journal, and what it takes from the blocks.
-/

namespace DoubleEntry

/-- The places stay as they are. -/
def Relocation.none : Relocation := ⟨id, id, monotone_id⟩

theorem Relocates.refl {α : Type} (x : Reading α) : Relocates .none Eq x x := by
  have houtcome (outcome : Except SyntaxError α) : Outcome .none Eq outcome outcome := by
    cases outcome with
    | ok a => exact .ok rfl
    | error e => exact .error e
  unfold Relocates
  cases x.run with
  | exact outcome => exact .exact (houtcome outcome)
  | rounded outcome => exact .rounded (houtcome outcome)
  | error e => exact .error e

/-! ## What is pushed -/

/-- What is pushed under a key: the value that was pushed first. -/
def Pushed.value? (pushed : Pushed) (key : String) : Option MetaValue :=
  (pushed.metadata.find? (·.1 = key)).map (·.2.1)

namespace Metadata

theorem get?_insertIfNew (m : Metadata) (key key' : String) (value : MetaValue) :
    (m.insertIfNew key' value).get? key =
      (m.get? key).or (if key = key' then some value else none) := by
  unfold insertIfNew
  by_cases hkey : key = key'
  · subst hkey
    cases hget : m.get? key with
    | none => simp [get?_insert]
    | some v => simp [hget]
  · rw [if_neg hkey, Option.or_none]
    split
    · rfl
    · rw [get?_insert, if_neg hkey]

/-- What is pushed counts where nothing was written. -/
theorem get?_complete (pushed : Pushed) (m : Metadata) (line : Nat) (key : String) :
    (pushed.complete m line).get? key = ((m.setLine line).get? key).or (pushed.value? key) := by
  have hfill (m : Metadata) (entries : List (String × MetaValue × Span)) :
      (entries.foldl (fun m e => m.insertIfNew e.1 e.2.1) m).get? key =
        (m.get? key).or ((entries.find? (·.1 = key)).map (·.2.1)) := by
    induction entries generalizing m with
    | nil => simp
    | cons e entries ih =>
      rw [List.foldl_cons, ih, get?_insertIfNew, Option.or_assoc]
      by_cases he : e.1 = key
      · simp [he]
      · simp [he, Ne.symm he]
  rw [Pushed.complete, get?_setLine_eq, hfill, get?_setLine_eq, Option.or_assoc]
  rfl

end Metadata

/-- A transaction may have more tags. -/
inductive Directive.Body.Completed : Body → Body → Prop
  | transaction (t : Transaction) (tags : List String) :
    Completed (.transaction t) (.transaction { t with tags := t.tags ++ tags })
  | same (b : Body) : Completed b b

/-- The directive with more tags and with metadata under more keys. -/
structure Placed.Completed (d d' : Placed Directive) : Prop where
  span : d'.span = d.span
  date : d'.value.date = d.value.date
  metadata : ∀ key value,
    d.value.metadata.get? key = some value → d'.value.metadata.get? key = some value
  body : d.value.body.Completed d'.value.body

namespace Draft

/-- The draft with more tags. -/
def Completed (d d' : Draft) : Prop :=
  ∃ tags, d' = { d with transaction.tags := d.transaction.tags ++ tags }

theorem Completed.addTag {d d' : Draft} (h : d.Completed d') (tag : String) :
    d.Completed (d'.addTag tag) := by
  obtain ⟨tags, rfl⟩ := h
  unfold Draft.addTag
  split
  · exact ⟨tags, rfl⟩
  · exact ⟨tags ++ [tag], by simp⟩

theorem completed_foldl_addTag (d : Draft) (pushed : List (String × Span)) :
    d.Completed (pushed.foldl (fun d tag => d.addTag tag.1) d) := by
  suffices ∀ d', d.Completed d' →
      d.Completed (pushed.foldl (fun d tag => d.addTag tag.1) d') from
    this d ⟨[], by simp⟩
  induction pushed with
  | nil => exact fun d' h => h
  | cons tag pushed ih => exact fun d' h => ih _ (h.addTag tag.1)

theorem read_completed (pushed : Pushed) (flag : Char) (l : Line) (body : List Line) :
    Relocates .none Completed (Draft.read {} flag l body) (Draft.read pushed flag l body) := by
  refine (Relocates.refl (readHead flag l)).bind ?_
  rintro d _ rfl
  refine (Relocates.refl (body.foldlM readLine d)).bind ?_
  rintro d _ rfl
  exact .pure (completed_foldl_addTag d pushed.tags)

end Draft

/-- A directive is completed, and the lines left are the same. -/
def Placed.CompletedBefore (p q : Placed Directive × List Line) : Prop :=
  p.1.Completed q.1 ∧ q.2 = p.2

theorem Placed.completed_mk {x y : Directive.Body} (h : x.Completed y) (pushed : Pushed)
    (date : Date) (m : Metadata) (line : Nat) (span : Span) :
    Completed ⟨⟨date, Pushed.complete {} m line, x⟩, span⟩
      ⟨⟨date, pushed.complete m line, y⟩, span⟩ where
  span := rfl
  date := rfl
  metadata key value h := by
    have hnone : ({} : Pushed).value? key = none := rfl
    rw [Metadata.get?_complete, hnone, Option.or_none] at h
    rw [Metadata.get?_complete, h, Option.some_or]
  body := h

/-- What is pushed adds to a directive, and changes nothing else of it. -/
theorem Block.directive_completed (pushed : Pushed) (b : Block) :
    Relocates .none Placed.CompletedBefore (b.directive {}) (b.directive pushed) := by
  unfold Block.directive
  refine (Relocates.refl b.head.date).bind ?_
  rintro ⟨date, ⟨indent, _ | ⟨⟨kind, span, place, text⟩, ts⟩, ending⟩⟩ _ rfl
  · exact .throw _
  · refine .ite Iff.rfl (fun _ => ?_) fun _ => .ite Iff.rfl (fun _ => ?_) fun _ => ?_
    · refine (Draft.read_completed pushed _ _ _).bind ?_
      rintro d _ ⟨tags, rfl⟩
      exact .pure ⟨Placed.completed_mk (.transaction _ tags) _ _ _ _ _, rfl⟩
    · refine (Draft.read_completed pushed _ _ _).bind ?_
      rintro d _ ⟨tags, rfl⟩
      exact .pure ⟨Placed.completed_mk (.transaction _ tags) _ _ _ _ _, rfl⟩
    · cases kind with
      | keyword k =>
        refine (Relocates.refl (Line.statement k span ⟨indent, ts, ending⟩)).bind ?_
        rintro ⟨x, rest⟩ _ rfl
        refine (Relocates.refl rest.finish).bind ?_
        rintro _ _ rfl
        refine (Relocates.refl (readMetadata {} b.head.ending.stop b.body)).bind ?_
        rintro ⟨m, stop, leftover⟩ _ rfl
        exact .pure ⟨Placed.completed_mk (.same x) _ _ _ _ _, rfl⟩
      | _ => exact .throw _

/-! ## Steps -/

/-- A reading of one token has no arithmetic. -/
theorem Line.token_eq (l : Line) (kind : Token.Kind) (what : Expectation) :
    (∃ t rest, l.token kind what = pure (t, rest)) ∨ ∃ e, l.token kind what = throw e := by
  unfold token
  split
  · split
    · exact .inl ⟨_, _, rfl⟩
    · exact .inr ⟨_, rfl⟩
  · exact .inr ⟨_, rfl⟩

theorem Line.finish_eq (l : Line) :
    l.finish = pure () ∨ l.finish = throw (l.afterComment.unexpected .endOfLine) := by
  have hfinish : l.finish = if l.afterComment.tokens = [] then return ()
      else throw (l.afterComment.unexpected .endOfLine) := rfl
  rw [hfinish]
  split
  · exact .inl rfl
  · exact .inr rfl

namespace Step

/-- A step says the same directive, completed, where something is pushed. It says the same error,
unless that is a pop without a push before it. What it opens and what it ends are the same. -/
structure Completed (pushed : Pushed) (s s' : Step) : Prop where
  directives : List.Forall₂ Placed.Completed (Journal.directives ⟨s.item.toList⟩)
    (Journal.directives ⟨s'.item.toList⟩)
  error : ∀ e, s.item = some (.error e) →
    s'.item = some (.error e) ∨ ∃ key, e.cause = .unbalancedPop key
  balance : ∀ key, s'.balance key = pushed.keys.count key + s.balance key

theorem completed_of_item {pushed : Pushed} {s s' : Step} (hitem : s'.item = s.item)
    (h : ∀ d, s.item ≠ some (.directive d))
    (hkeys : s'.pushed.keys.Perm (s.pushed.keys ++ pushed.keys)) : s.Completed pushed s' where
  directives := by
    rw [hitem]
    obtain ⟨_ | ⟨d⟩ | _, pushed, leftover⟩ := s
    case some.directive => exact absurd rfl (h d)
    all_goals exact .nil
  error _ he := .inl (hitem.trans he)
  balance key := by
    rw [balance, balance, hitem, hkeys.count_eq, List.count_append, Int.natCast_add]
    omega

variable (pushed : Pushed) (leftover : List Line)

theorem completed_fail (e : SyntaxError) : (fail {} e).Completed pushed (fail pushed e) :=
  completed_of_item rfl (by simp [fail]) (.refl _)

theorem ofReading_completed {α β : Type} {R : α → β → Prop} {x : Reading α} {y : Reading β}
    {done : α → Step} {done' : β → Step} (h : Relocates .none R x y)
    (hdone : ∀ a b, R a b → (done a).Completed pushed (done' b)) :
    Checked.Rel (Completed pushed) (ofReading {} x done) (ofReading pushed y done') := by
  refine Checked.Rel.bind h fun r r' hr => ?_
  cases hr with
  | ok h => exact .exact (hdone _ _ h)
  | error e => exact .exact (completed_fail pushed e)

theorem ofPush_completed {x y : Reading (Pushed × Line)}
    (h : Relocates .none (fun p q => p.2 = q.2 ∧ q.1.keys.Perm (p.1.keys ++ pushed.keys)) x y) :
    Checked.Rel (Completed pushed) (ofPush {} x leftover) (ofPush pushed y leftover) := by
  refine Checked.Rel.bind h fun r r' hr => ?_
  cases hr with
  | @ok p q h =>
    obtain ⟨after, rest⟩ := p
    obtain ⟨after', _⟩ := q
    obtain ⟨rfl, hkeys⟩ := h
    refine Checked.Rel.bind (Relocates.refl rest.finish) fun r r' hr => ?_
    cases hr with
    | ok _ => exact .exact (completed_of_item rfl (by simp [skip]) hkeys)
    | error e => exact .exact (completed_of_item rfl (by simp [fail]) hkeys)
  | error e => exact .exact (completed_fail pushed e)

/-- A pop that finds nothing alone may find something, but it says nothing then. -/
theorem completed_unbalanced (key : PushKey) (span : Span) {s' : Step}
    (h : ∀ d, s'.item ≠ some (.directive d)) (hkeys : pushed.keys.Perm (key :: s'.pushed.keys))
    (hitem : ∀ other, Item.balance other s'.item.toList = 0) :
    (fail {} ⟨.unbalancedPop key, span⟩).Completed pushed s' where
  directives := by
    obtain ⟨_ | ⟨d⟩ | _, pushed, leftover⟩ := s'
    case some.directive => exact absurd rfl (h d)
    all_goals exact .nil
  error e he := by
    obtain rfl := Item.error.inj (Option.some.inj he)
    exact .inr ⟨key, rfl⟩
  balance other := by
    have hcount := hkeys.count_eq other
    have hnone : (fail {} ⟨.unbalancedPop key, span⟩).balance other =
        -([key].count other : Int) :=
      (Int.zero_add _).trans (Item.balance_unbalanced other key span)
    rw [← List.singleton_append, List.count_append] at hcount
    rw [hnone, balance, hitem, hcount, Int.natCast_add]
    omega

/-- A pop of a tag or of a key, which is found among what is pushed. -/
theorem ofPop_completed (l : Line) (kind : Token.Kind) (what : Expectation)
    (find : Pushed → Token → Option Pushed) (key : Token → PushKey) (hfind : ∀ t, find {} t = none)
    (hkeys : ∀ t popped, find pushed t = some popped → pushed.keys.Perm (key t :: popped.keys))
    {pop : Pushed → Reading (Pushed × Line)}
    (hpop : ∀ pushed, pop pushed = do
      let (t, rest) ← l.token kind what
      match find pushed t with
      | some pushed => return (pushed, rest)
      | none => throw ⟨.unbalancedPop (key t), t.span⟩) :
    Checked.Rel (Completed pushed) (ofPush {} (pop {}) leftover)
      (ofPush pushed (pop pushed) leftover) := by
  rw [hpop, hpop]
  obtain ⟨t, rest, ht⟩ | ⟨e, he⟩ := l.token_eq kind what
  · simp only [ht, pure_bind, hfind]
    cases hpopped : find pushed t with
    | none => exact .exact (completed_fail pushed _)
    | some popped =>
      have hperm := hkeys t popped hpopped
      obtain hfinish | hfinish := rest.finish_eq
      · change Checked.Rel _ _ (ofReading popped rest.finish _)
        rw [hfinish]
        exact .exact (completed_unbalanced pushed _ _ (by simp [skip]) hperm fun _ => rfl)
      · change Checked.Rel _ _ (ofReading popped rest.finish _)
        rw [hfinish]
        exact .exact (completed_unbalanced pushed _ _ (by simp [fail]) hperm fun other =>
          Item.balance_unexpected other _ _)
  · rw [he]
    exact .exact (completed_fail pushed e)

end Step

/-- Where something is pushed, a block says what it says alone. -/
theorem Block.step_completed (pushed : Pushed) (b : Block) :
    Checked.Rel (Step.Completed pushed) (b.step {}) (b.step pushed) := by
  have hsame {item : Item} (h : ∀ d, item ≠ .directive d) (leftover : List Line) :
      Step.Completed pushed ⟨some item, {}, leftover⟩ ⟨some item, pushed, leftover⟩ :=
    Step.completed_of_item rfl (by simpa using h) (.refl _)
  have hskip : (Step.skip {} b.body).Completed pushed (Step.skip pushed b.body) :=
    Step.completed_of_item rfl (by simp [Step.skip]) (.refl _)
  unfold step
  generalize b.head.withTokens (b.head.tokens.dropWhile (·.kind = .comment)) = head
  obtain ⟨indent, _ | ⟨⟨kind, span, place, text⟩, ts⟩, ending⟩ := head
  · exact .exact hskip
  · let rest : Line := ⟨indent, ts, ending⟩
    cases kind with
    | date =>
      refine Step.ofReading_completed pushed (directive_completed pushed _) ?_
      rintro ⟨d, leftover⟩ ⟨d', _⟩ ⟨hd, rfl⟩
      exact ⟨.cons hd .nil, by simp, fun key => (Int.add_zero _).trans (Int.add_zero _).symm⟩
    | keyword k =>
      cases k with
      | option =>
        refine Step.ofReading_completed pushed (Relocates.refl (rest.option span)) ?_
        rintro o _ rfl
        exact hsame (by simp) _
      | inclusion =>
        refine Step.ofReading_completed pushed (Relocates.refl (rest.inclusion span)) ?_
        rintro i _ rfl
        exact hsame (by simp) _
      | plugin =>
        refine Step.ofReading_completed pushed (Relocates.refl (rest.plugin span)) ?_
        rintro p _ rfl
        exact hsame (by simp) _
      | pushTag =>
        refine Step.ofPush_completed pushed b.body ((Relocates.refl (rest.token .tag .tag)).bind ?_)
        rintro ⟨t, rest⟩ _ rfl
        exact .pure ⟨rfl, pushed.keys_pushTag _ _⟩
      | popTag =>
        exact Step.ofPop_completed pushed b.body rest .tag .tag
          (fun pushed t => pushed.popTag? (Line.signedName t)) (fun t => .tag (Line.signedName t))
          (fun _ => rfl) (fun _ _ => Pushed.keys_popTag?) fun _ => rfl
      | pushMeta =>
        refine Step.ofPush_completed pushed b.body
          ((Relocates.refl (rest.token .metaKey .metadataKey)).bind ?_)
        rintro ⟨t, rest⟩ _ rfl
        refine (Relocates.refl rest.value).bind ?_
        rintro ⟨value, rest⟩ _ rfl
        refine (Relocates.refl rest.finish).bind ?_
        rintro _ _ rfl
        exact .pure ⟨rfl, pushed.keys_pushMetadata _ _ _⟩
      | popMeta =>
        exact Step.ofPop_completed pushed b.body rest .metaKey .metadataKey
          (fun pushed t => pushed.popMetadata? (Line.keyName t))
          (fun t => .metadata (Line.keyName t)) (fun _ => rfl)
          (fun _ _ => Pushed.keys_popMetadata?) fun _ => rfl
      | _ => exact .exact (Step.completed_fail pushed _)
    | star | flag => exact .exact hskip
    | _ => exact .exact (Step.completed_fail pushed _)

/-! ## Blocks of a text -/

theorem Checked.Rel.ne_error_iff {α β : Type} {R : α → β → Prop} {x : Checked α} {y : Checked β}
    (h : Rel R x y) : (∀ e, x ≠ .error e) ↔ ∀ e, y ≠ .error e := by
  cases h <;> simp

theorem Journal.directives_append (items items' : List Item) :
    directives ⟨items ++ items'⟩ = directives ⟨items⟩ ++ directives ⟨items'⟩ :=
  List.filterMap_append

theorem Journal.errors_append (items items' : List Item) :
    errors ⟨items ++ items'⟩ = errors ⟨items⟩ ++ errors ⟨items'⟩ :=
  List.filterMap_append

namespace Block

/-- The blocks of a text. -/
def ofText (source : String) : List Block := (ofLines (Line.ofTokens (Token.scan source))).2

/-- What a block says alone. -/
def item? (b : Block) : Option Item := (b.step {}).value?.bind (·.item)

/-- Stray lines have no arithmetic, and say at most an error, which is not about a pop. -/
theorem stray_eq (below : List Line) :
    ∃ o, stray below = .exact o ∧ Journal.directives ⟨o.toList⟩ = [] ∧
      ∀ key, Item.balance key o.toList = 0 := by
  induction below with
  | nil => exact ⟨none, rfl, rfl, fun _ => rfl⟩
  | cons l below ih =>
    rw [stray]
    split
    · obtain h | h := l.finish_eq
      · rw [h]
        exact ih
      · rw [h]
        exact ⟨_, rfl, rfl, fun key => Item.balance_unexpected key _ _⟩
    · exact ⟨_, rfl, rfl, fun key => rfl⟩

/-- Blocks can be read exactly if each of them can be read alone. -/
theorem exists_items_iff (pushed : Pushed) (blocks : List Block) :
    (∃ said, (items pushed blocks).value? = some said) ↔
      ∀ b ∈ blocks, ∀ e, b.step {} ≠ .error e := by
  induction blocks generalizing pushed with
  | nil => simp [items]
  | cons b blocks ih =>
    rw [List.forall_mem_cons, (step_completed pushed b).ne_error_iff, ← Checked.exists_value?_iff]
    simp only [items, Checked.value?_bind, Option.bind_eq_some_iff]
    constructor
    · rintro ⟨_, s, hs, _, -, rest, hrest, -⟩
      exact ⟨⟨s, hs⟩, (ih s.pushed).1 ⟨rest, hrest⟩⟩
    · rintro ⟨⟨s, hs⟩, hblocks⟩
      obtain ⟨o, ho, -⟩ := stray_eq s.leftover
      obtain ⟨rest, hrest⟩ := (ih s.pushed).2 hblocks
      exact ⟨_, s, hs, o, by rw [ho]; rfl, rest, hrest, rfl⟩

/-- Blocks say what each of them says alone. -/
theorem items_completed {pushed : Pushed} {blocks : List Block} {items : List Item}
    (h : (Block.items pushed blocks).value? = some items) :
    List.Forall₂ Placed.Completed (Journal.directives ⟨blocks.filterMap item?⟩)
        (Journal.directives ⟨items⟩) ∧
      ∀ b ∈ blocks, ∀ e, b.item? = some (.error e) →
        .error e ∈ items ∨ ∃ key, e.cause = .unbalancedPop key := by
  induction blocks generalizing pushed items with
  | nil =>
    obtain rfl := Option.some.inj h
    refine ⟨?_, by simp⟩
    simp [Journal.directives]
  | cons b blocks ih =>
    have hrel := step_completed pushed b
    simp only [Block.items, Checked.value?_bind, Option.bind_eq_some_iff] at h
    obtain ⟨s', hs', after, hafter, rest, hrest, hitems⟩ := h
    obtain rfl := Option.some.inj hitems
    obtain ⟨s, hs⟩ := Checked.exists_value?_iff.2
      (hrel.ne_error_iff.2 (Checked.exists_value?_iff.1 ⟨s', hs'⟩))
    have hstep : s.Completed pushed s' := by
      obtain ⟨t, ht, h⟩ := hrel.value? hs
      obtain rfl : t = s' := Option.some.inj (ht.symm.trans hs')
      exact h
    have hitem : b.item? = s.item := by rw [item?, hs, Option.bind_some]
    obtain ⟨hdirectives, herrors⟩ := ih hrest
    obtain ⟨o, ho, hnone, -⟩ := stray_eq s'.leftover
    obtain rfl : o = after := by simpa [ho] using hafter
    constructor
    · have hcons : (b :: blocks).filterMap item? = s.item.toList ++ blocks.filterMap item? := by
        rw [List.filterMap_cons, hitem]
        cases s.item <;> rfl
      rw [hcons, Journal.directives_append, Journal.directives_append, Journal.directives_append,
        hnone, List.append_nil]
      exact List.rel_append hstep.directives hdirectives
    · intro b' hb' e he
      rw [List.mem_append, List.mem_append, Option.mem_toList]
      obtain rfl | hb' := List.mem_cons.1 hb'
      · exact (hstep.error e (hitem ▸ he)).imp_left fun h => .inl (.inl h)
      · exact (herrors b' hb' e he).imp_left .inr

end Block

/-! ## Journals -/

/-- The journal has the directives that the blocks say alone, completed by what is pushed. It has
their errors, which stand on their lines, unless one is a pop without a push. -/
structure Journal.TakesUp (j : Journal) (blocks : List Block) : Prop where
  directives : List.Forall₂ Placed.Completed (Journal.directives ⟨blocks.filterMap Block.item?⟩)
    j.directives
  errors : ∀ b ∈ blocks, ∀ e, b.item? = some (.error e) →
    Line.SomeHolds b.lines e.span ∧ (e ∈ j.errors ∨ ∃ key, e.cause = .unbalancedPop key)

/-- A text has a journal, which takes up what its blocks say, exactly if each block can be read
alone. A block cannot only if a sum, a difference or a product on one of its lines does not fit. -/
theorem Journal.exists_ofText_iff (text : String) :
    ((∃ j, (ofText text).value? = some j ∧ j.TakesUp (Block.ofText text)) ↔
        ∀ b ∈ Block.ofText text, ∀ e, b.step {} ≠ .error e) ∧
      ∀ b ∈ Block.ofText text, ∀ e, b.step {} = .error e → ∃ l ∈ b.lines, l.Overflows e := by
  have hends (b : Block) := b.step_ends (List.Subset.refl b.lines) (Pushed.on_empty b.lines)
  refine ⟨⟨?_, fun h => ?_⟩, fun b _ e he => ?_⟩
  · rintro ⟨j, hj, -⟩
    obtain ⟨-, items, -, hitems, -⟩ := value?_ofTokens.1 hj
    exact (Block.exists_items_iff {} _).1 ⟨items, hitems⟩
  · obtain ⟨items, hitems⟩ := (Block.exists_items_iff {} _).2 h
    obtain ⟨o, ho, hnone, -⟩ := Block.stray_eq (Block.ofLines (Line.ofTokens (Token.scan text))).1
    obtain ⟨hdirectives, herrors⟩ := Block.items_completed hitems
    refine ⟨⟨o.toList ++ items⟩, value?_ofTokens.2 ⟨o, items, by rw [ho]; rfl, hitems, rfl⟩, ?_, ?_⟩
    · rw [Journal.directives_append, hnone, List.nil_append]
      exact hdirectives
    · intro b hb e he
      obtain ⟨s, hs, hitem⟩ := Option.bind_eq_some_iff.1 he
      refine ⟨(((hends b).of_value? hs).item _ hitem).on, ?_⟩
      exact (herrors b hb e he).imp_left fun h => mem_errors.2 (List.mem_append_right _ h)
  · have hb := hends b
    rw [he] at hb
    exact hb.of_error

/-! ## A sum that does not fit -/

theorem Line.date_of_tokens {l : Line} {t : Token} {ts : List Token} (h : l.tokens = t :: ts)
    (hkind : t.kind = .date) {d : Date} (hd : Date.ofText? t.text = some d) :
    l.date = pure (d, l.withTokens ts) := by
  simp [date, token, h, hkind, dateValue, hd]

/-- A sum of two numbers, and a currency. Both are decimals, but their sum does not fit one. -/
def sumTooLarge : Line where
  indent := none
  tokens := [⟨.number, ⟨20, 49⟩, 1, "79228162514264337593543950335"⟩, ⟨.plus, ⟨50, 51⟩, 1, "+"⟩,
    ⟨.number, ⟨52, 53⟩, 1, "1"⟩, ⟨.currency, ⟨54, 56⟩, 1, "CC"⟩]
  ending := ⟨56, 57⟩

theorem expression_sumTooLarge :
    sumTooLarge.expression = ExceptT.lift (.error .additionOverflow) := by
  rw [Line.expression, Line.product, Line.factor]
  simp only [sumTooLarge, Line.numberValue]
  rw [show Decimal.ofChars? _ = some ⟨false, 2 ^ 96 - 1, 0, by decide, by decide⟩ by decide +kernel]
  simp only [pure_bind]
  rw [Line.moreFactors]
  simp only [Line.withTokens, pure_bind]
  rw [Line.moreProducts]
  simp only [Line.withTokens]
  rw [Line.product, Line.factor]
  simp only [Line.numberValue]
  rw [show Decimal.ofChars? _ = some ⟨false, 1, 0, by decide, by decide⟩ by decide +kernel]
  simp only [pure_bind]
  rw [Line.moreFactors]
  simp only [Line.withTokens, pure_bind]
  rw [show Decimal.add _ _ = .error .additionOverflow by decide +kernel]
  rfl

/-- A price that is written as this sum, and an account that is opened the day after. -/
def priceTooLarge : String :=
  "2024-01-01 price AA 79228162514264337593543950335 + 1 CC\n2024-01-02 open Assets:Bank\n"

/-- The line of the price after the date. -/
def restTooLarge : Line :=
  sumTooLarge.withTokens
    (⟨.keyword .price, ⟨11, 16⟩, 1, "price"⟩ :: ⟨.currency, ⟨17, 19⟩, 1, "AA"⟩ ::
      sumTooLarge.tokens)

/-- The block of the price. -/
def blockTooLarge : Block where
  head := restTooLarge.withTokens (⟨.date, ⟨0, 10⟩, 1, "2024-01-01"⟩ :: restTooLarge.tokens)
  body := []

/-- The block of the account. -/
def blockOfBank : Block where
  head :=
    { indent := none
      tokens := [⟨.date, ⟨57, 67⟩, 2, "2024-01-02"⟩, ⟨.keyword .opening, ⟨68, 72⟩, 2, "open"⟩,
        ⟨.account, ⟨73, 84⟩, 2, "Assets:Bank"⟩]
      ending := ⟨84, 85⟩ }
  body := []

theorem ofLines_priceTooLarge :
    Block.ofLines (Line.ofTokens (Token.scan priceTooLarge)) =
      ([], [blockTooLarge, blockOfBank]) := by
  have hscan : Token.scan priceTooLarge =
      blockTooLarge.head.tokens ++ ⟨.newline, ⟨56, 57⟩, 1, "\n"⟩ :: blockOfBank.head.tokens ++
        [⟨.newline, ⟨84, 85⟩, 2, "\n"⟩] := by decide +kernel
  rw [hscan]
  rfl

theorem directive_tooLarge :
    blockTooLarge.directive {} = ExceptT.lift (.error .additionOverflow) := by
  have hamount : sumTooLarge.amount = ExceptT.lift (.error .additionOverflow) := by
    rw [Line.amount, expression_sumTooLarge]
    rfl
  rw [Block.directive, Line.date_of_tokens rfl rfl
    (show _ = some (.afterNewYear 0) by decide +kernel)]
  change (sumTooLarge.amount >>= _) >>= _ = _
  rw [hamount]
  rfl

/-- What the block of the account says. -/
def openingOfBank : Placed Directive where
  value :=
    { date := .afterNewYear 1
      metadata := ({} : Metadata).setLine 2
      body := .opening "Assets:Bank" [] none }
  span := ⟨57, 85⟩

/-- The text has no journal, although an account is opened on the line below. -/
theorem ofText_priceTooLarge :
    (Journal.ofText priceTooLarge).value? = none ∧
      ∃ b ∈ Block.ofText priceTooLarge, b.item? = some (.directive openingOfBank) := by
  constructor
  · have hstep : blockTooLarge.step {} = .error .additionOverflow := by
      change Step.ofReading {} (blockTooLarge.directive {}) _ = _
      rw [directive_tooLarge]
      rfl
    rw [Journal.ofText, Journal.ofTokens, ofLines_priceTooLarge]
    change ((blockTooLarge.step {} >>= _) >>= _).value? = _
    rw [hstep]
    rfl
  · rw [Block.ofText, ofLines_priceTooLarge]
    exact ⟨blockOfBank, by simp, by decide +kernel⟩

end DoubleEntry
