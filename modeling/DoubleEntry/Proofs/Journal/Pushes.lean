import DoubleEntry.Proofs.Journal.Scopes
import DoubleEntry.Proofs.Journal.Steps

/-!
# The scopes of pushes

A block with a push opens a scope, one with a pop ends one. In a text without errors, apart from
pushes that stay open, what is pushed after some blocks is what their scopes leave open.

* `Block.tagScope?`, `Block.metadataScope?`: the scope that a block opens or ends.
* `Pushed.LeftBy`: what is pushed is what some blocks leave open.
* `Block.moves_of_step`: what a block makes of what is pushed.
* `Placed.ReadFrom`: a directive is read with what the blocks before it leave open.
* `Journal.reads_of_clean`: all directives of a text are, and all that is left open is reported.
-/

namespace DoubleEntry

/-- The key and the value that a line writes, if it writes them and nothing else. -/
def Line.pair? (l : Line) : Option (String × MetaValue) :=
  l.keyValue.run.value?.bind (·.toOption)

namespace Block

/-- What follows the first token of a block, comments apart. -/
def operand (b : Block) : Line := b.uncommented.head.withTokens b.uncommented.head.tokens.tail

/-- The push or pop of a tag that a block writes, a push with its place. -/
def tagScope? (b : Block) : Option (Scope Span) :=
  match b.keyword?, b.operand.tokens with
  | some .pushTag, t :: _ => some (.opens (Line.signedName t) t.span)
  | some .popTag, t :: _ => some (.closes (Line.signedName t))
  | _, _ => none

/-- The push or pop of metadata that a block writes, a push with its value and its place. -/
def metadataScope? (b : Block) : Option (Scope (MetaValue × Span)) :=
  match b.keyword?, b.operand.tokens with
  | some .pushMeta, t :: _ => b.operand.pair?.map fun e => .opens e.1 (e.2, t.span)
  | some .popMeta, t :: _ => some (.closes (Line.keyName t))
  | _, _ => none

end Block

/-- What is pushed after a block is what its scope makes of what was pushed. -/
def Pushed.Moves (pushed : Pushed) (b : Block) (after : Pushed) : Prop :=
  Scope.Moves pushed.tags b.tagScope? after.tags ∧
    Scope.Moves pushed.metadata b.metadataScope? after.metadata

/-- What is pushed is what some blocks leave open. -/
def Pushed.LeftBy (blocks : List Block) (pushed : Pushed) : Prop :=
  Scope.Leaves (blocks.filterMap Block.tagScope?) pushed.tags ∧
    Scope.Leaves (blocks.filterMap Block.metadataScope?) pushed.metadata

theorem Pushed.LeftBy.moves {blocks : List Block} {b : Block} {pushed after : Pushed}
    (h : pushed.LeftBy blocks) (hmoves : pushed.Moves b after) : after.LeftBy (blocks ++ [b]) := by
  rw [LeftBy, List.filterMap_append, List.filterMap_append]
  exact ⟨h.1.moves hmoves.1, h.2.moves hmoves.2⟩

/-- A push or a pop makes of what is pushed what its scope says. -/
theorem Pushed.Read.moves {pushed after : Pushed} {b : Block} {k : Keyword} {rest : Line}
    (hkeyword : b.keyword? = some k) (h : pushed.Read b.operand k after rest) :
    pushed.Moves b after := by
  rw [Moves, Block.tagScope?, Block.metadataScope?, hkeyword]
  cases h with
  | pushTag htokens =>
    rw [htokens]
    exact ⟨.opens _ _, .stays⟩
  | popTag htokens hpop =>
    obtain ⟨tags, htags, rfl⟩ := popTag?_eq_some.1 hpop
    rw [htokens]
    exact ⟨.closes htags, .stays⟩
  | @pushMeta t _ value _ htokens hread =>
    have hpair : b.operand.pair? = some (Line.keyName t, value) := by
      rw [Line.pair?, hread]
      rfl
    rw [htokens, hpair]
    exact ⟨.stays, .opens _ _⟩
  | popMeta htokens hpop =>
    obtain ⟨metadata, hmetadata, rfl⟩ := popMetadata?_eq_some.1 hpop
    rw [htokens]
    exact ⟨.stays, .closes hmetadata⟩

/-! ## Blocks without errors -/

/-- The directive is read from one of some blocks, with what the blocks before it leave open. The
lines of the block that do not belong to it hold nothing but comments. -/
def Placed.ReadFrom (d : Placed Directive) (blocks : List Block) : Prop :=
  ∃ first b more pushed leftover, blocks = first ++ b :: more ∧ pushed.LeftBy first ∧
    (b.uncommented.directive pushed).run.value? = some (.ok (d, leftover)) ∧
    ∀ l ∈ leftover, l.atEnd

namespace Block

variable {pushed : Pushed} {b : Block} {s : Step}

/-- A block without an error makes of what is pushed what its scope says. -/
theorem moves_of_step (h : (b.step pushed).value? = some s)
    (hitem : ∀ e, s.item ≠ some (.error e)) : pushed.Moves b s.pushed := by
  obtain ⟨hpushed, -, hnone⟩ | ⟨t, ts, k, r, htokens, hkind, hr, h⟩ := step_cases h
  · suffices b.tagScope? = none ∧ b.metadataScope? = none by
      rw [Pushed.Moves, this.1, this.2, hpushed]
      exact ⟨.stays, .stays⟩
    unfold tagScope? metadataScope?
    cases hkeyword : b.keyword? with
    | none => exact ⟨rfl, rfl⟩
    | some k =>
      obtain ⟨t, ts, htokens, hkind⟩ := keyword?_eq_some.1 hkeyword
      have hread := hnone t ts k htokens hkind
      cases k with
      | pushTag | popTag | pushMeta | popMeta => cases hread
      | _ => exact ⟨rfl, rfl⟩
  · have hkeyword : b.keyword? = some k := keyword?_eq_some.2 ⟨t, ts, htokens, hkind⟩
    have hoperand : b.operand = b.uncommented.head.withTokens ts := by rw [operand, htokens]; rfl
    obtain ⟨e, rfl⟩ | ⟨after, rest, hread, rfl | ⟨-, e, rfl⟩⟩ := Step.ofPush_cases h
    · exact absurd rfl (hitem e)
    · exact (Pushed.read_of_read? (hoperand ▸ hr) hread).moves hkeyword
    · exact absurd rfl (hitem e)

/-- Lines that belong to no directive say an error, or nothing if they hold nothing but comments. -/
theorem stray_cases {below : List Line} {o : Option Item} (h : (stray below).value? = some o) :
    o = none ∧ (∀ l ∈ below, l.atEnd) ∨ ∃ e, o = some (.error e) := by
  induction below with
  | nil =>
    obtain rfl := Option.some.inj h
    exact .inl ⟨rfl, by simp⟩
  | cons l below ih =>
    rw [stray] at h
    split at h
    · next hend =>
      obtain hfinish | hfinish := l.finish_eq
      · rw [hfinish] at h
        obtain ⟨hnone, hbelow⟩ | herror := ih h
        · exact .inl ⟨hnone, List.forall_mem_cons.2 ⟨hend, hbelow⟩⟩
        · exact .inr herror
      · rw [hfinish] at h
        exact .inr ⟨_, (Option.some.inj h).symm⟩
    · exact .inr ⟨_, (Option.some.inj h).symm⟩

/-- Blocks without errors of their own report what they and those before them leave open, and their
directives are read with what is open there. -/
theorem items_of_clean {before blocks : List Block} {items : List Item} {lines : List Line}
    (hlines : ∀ b ∈ blocks, b.lines ⊆ lines) (hon : pushed.On lines)
    (hpushed : pushed.LeftBy before) (h : (Block.items pushed blocks).value? = some items)
    (hclean : ∀ e, .error e ∈ items → ∃ key, e.cause = .unclosedPush key) :
    (∃ after : Pushed, after.LeftBy (before ++ blocks) ∧
      Journal.errors ⟨items⟩ = after.unclosed) ∧
    ∀ d, .directive d ∈ items → d.ReadFrom (before ++ blocks) := by
  induction blocks generalizing pushed before items with
  | nil =>
    obtain rfl := Option.some.inj h
    refine ⟨⟨pushed, by rwa [List.append_nil], ?_⟩, by simp⟩
    simp [Journal.errors, List.filterMap_map]
  | cons b blocks ih =>
    obtain ⟨hb, hblocks⟩ := List.forall_mem_cons.1 hlines
    simp only [Block.items, Checked.value?_bind, Option.bind_eq_some_iff] at h
    obtain ⟨s, hs, stray, hstray, rest, hrest, hitems⟩ := h
    obtain rfl := Option.some.inj hitems
    have hstep := (step_ends b hb hon).of_value? hs
    have hitem (e : SyntaxError) : s.item ≠ some (.error e) := by
      intro he
      obtain ⟨key, hkey⟩ := hclean e (by simp [he])
      exact (hstep.item _ he).cause_ne key hkey
    obtain ⟨rfl, hend⟩ | ⟨e, rfl⟩ := stray_cases hstray
    · obtain ⟨⟨after, hafter, herrors⟩, hdirectives⟩ := ih hblocks hstep.pushed
        (hpushed.moves (moves_of_step hs hitem)) hrest
        fun e he => hclean e (List.mem_append_right _ he)
      rw [List.append_assoc, List.singleton_append] at hafter hdirectives
      refine ⟨⟨after, hafter, ?_⟩, fun d hd => ?_⟩
      · have hnone : Journal.errors ⟨s.item.toList⟩ = [] := by
          cases hi : s.item with
          | none => rfl
          | some i =>
            cases i with
            | error e => exact absurd hi (hitem e)
            | _ => rfl
        rw [Option.toList_none, List.append_nil, Journal.errors_append, hnone, herrors]
        rfl
      · simp only [Option.toList_none, List.append_nil, List.mem_append, Option.mem_toList] at hd
        obtain hd | hd := hd
        · exact ⟨before, b, blocks, pushed, s.leftover, rfl, hpushed, directive_of_step hs hd, hend⟩
        · exact hdirectives d hd
    · have hleft : s.leftover ⊆ lines := fun l hl => hb (List.mem_cons_of_mem _ (hstep.leftover hl))
      have hsaid := (stray_ends (E := fun _ => True) s.leftover hleft).of_value? hstray _ rfl
      obtain ⟨key, hkey⟩ := hclean e (by simp)
      exact absurd hkey (hsaid.cause_ne key)

end Block

/-- A text whose only errors are pushes that stay open reports what its blocks leave open, and its
directives are read with what is open in front of them. -/
theorem Journal.reads_of_clean {source : String} {j : Journal}
    (h : (ofText source).value? = some j)
    (hclean : ∀ e ∈ j.errors, ∃ key, e.cause = .unclosedPush key) :
    (∃ after : Pushed, after.LeftBy (Block.ofText source) ∧ j.errors = after.unclosed) ∧
      ∀ d ∈ j.directives, d.ReadFrom (Block.ofText source) := by
  obtain ⟨o, items, ho, hitems, rfl⟩ := value?_ofTokens.1 h
  have hblocks : ∀ b ∈ Block.ofText source, b.lines ⊆ Line.ofTokens (Token.scan source) :=
    fun b hb _ => Block.mem_of_mem_lines hb
  have hleading : o = none := by
    obtain ⟨hnone, -⟩ | ⟨e, rfl⟩ := Block.stray_cases ho
    · exact hnone
    · have hsaid := (Block.stray_ends (E := fun _ => True) _
        (List.Subset.refl _)).of_value? ho _ rfl
      obtain ⟨key, hkey⟩ := hclean e (mem_errors.2 (by simp))
      exact absurd hkey (hsaid.cause_ne key)
  subst hleading
  have hempty : ({} : Pushed).LeftBy [] := ⟨.nil, .nil⟩
  obtain ⟨herrors, hdirectives⟩ := Block.items_of_clean hblocks (Pushed.on_empty _) hempty hitems
    fun e he => hclean e (mem_errors.2 (by simpa using he))
  exact ⟨herrors, fun d hd => hdirectives d (by simpa using mem_items_of_directive hd)⟩

end DoubleEntry
