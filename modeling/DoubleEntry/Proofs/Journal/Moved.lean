import DoubleEntry.Proofs.Journal.RelocatedBlock
import DoubleEntry.Proofs.Journal.Scan

/-!
# Journals further on

What stands further on by a `Motion` is at another place in the simplest way: all of its offsets and
all of its lines grow by the same numbers.

* `Motion.relocation`: the motion as a relocation.
* `Posting.Moved`, `Placed.Moved`, `Item.Moved`: postings, directives and items further on.
* `Block.items_moves`: blocks add the same further on.
-/

namespace DoubleEntry

variable {m : Motion} {written : String → Prop}

/-- Every place goes further on by the same. -/
def Motion.relocation (m : Motion) : Relocation where
  offset := (· + m.bytes)
  line := (· + m.lines)
  monotone _ _ h := Nat.add_le_add_right h m.bytes

theorem Token.moved_eq (m : Motion) : moved m = relocated m.relocation := rfl

/-- A line that moves stays as far in as it is: its start and its first token move alike. -/
theorem Line.keepsIndent_relocation (m : Motion) (l : Line) : l.KeepsIndent m.relocation := by
  obtain ⟨_ | t, tokens, ending⟩ := l
  · rfl
  · exact Nat.add_sub_add_right _ _ _

/-! ## Directives -/

/-- The posting at its new place. Its metadata begins with the line on which it starts, after which
come entries with keys that are written. -/
structure Posting.Moved (m : Motion) (written : String → Prop) (p q : Posting) : Prop where
  metadata : ∃ line entries, (∀ e ∈ entries, written e.1) ∧
    p.metadata = (({} : Metadata).setLine line).insertAll entries ∧
    q.metadata = (({} : Metadata).setLine (line + m.lines)).insertAll entries
  others : q = { p with metadata := q.metadata }

/-- A posting at another place has moved if all places move alike. -/
theorem Posting.Relocated.moved {p q : Posting} (h : p.Relocated m.relocation written q) :
    p.Moved m written q := ⟨h.metadata, h.others⟩

/-- The transaction with its postings at their new places. -/
inductive Transaction.Moved (m : Motion) (written : String → Prop) :
    Transaction → Transaction → Prop
  | mk {t : Transaction} {ps : List Posting}
    (h : List.Forall₂ (Posting.Moved m written) t.postings ps) :
    Moved m written t { t with postings := ps }

/-- What the directive says, at its new place. -/
inductive Directive.Body.Moved (m : Motion) (written : String → Prop) : Body → Body → Prop
  | transaction {t u : Transaction} (h : t.Moved m written u) :
    Moved m written (.transaction t) (.transaction u)
  | other {b : Body} (h : ∀ t, b ≠ .transaction t) : Moved m written b b

theorem Directive.Body.Relocated.moved {b b' : Body} (h : b.Relocated m.relocation written b') :
    b.Moved m written b' := by
  cases h with
  | transaction h =>
    obtain ⟨hps⟩ := h
    exact .transaction ⟨hps.imp fun _ _ hp => hp.moved⟩
  | other h => exact .other h

/-- The directive at its new place, with another line in its metadata. -/
structure Placed.Moved (m : Motion) (written : String → Prop) (p q : Placed Directive) : Prop where
  date : q.value.date = p.value.date
  metadata : ∃ line base, p.value.metadata = Metadata.setLine base line ∧
    q.value.metadata = base.setLine (line + m.lines)
  body : p.value.body.Moved m written q.value.body
  span : q.span = p.span.moved m

/-! ## Items -/

/-- The error at its new place. -/
def SyntaxError.moved (m : Motion) (e : SyntaxError) : SyntaxError := ⟨e.cause, e.span.moved m⟩

/-- The option line at its new place. -/
def OptionLine.moved (m : Motion) (o : OptionLine) : OptionLine :=
  { o with span := o.span.moved m }

/-- The include line at its new place. -/
def IncludeLine.moved (m : Motion) (i : IncludeLine) : IncludeLine :=
  { i with span := i.span.moved m }

/-- The plugin line at its new place. -/
def PluginLine.moved (m : Motion) (p : PluginLine) : PluginLine :=
  { p with span := p.span.moved m }

/-- The item at its new place. -/
inductive Item.Moved (m : Motion) (written : Nat → String → Prop) : Item → Item → Prop
  | directive {d e : Placed Directive} (h : d.Moved m (written d.span.start) e) :
    Moved m written (.directive d) (.directive e)
  | option (o : OptionLine) : Moved m written (.option o) (.option (o.moved m))
  | inclusion (i : IncludeLine) : Moved m written (.inclusion i) (.inclusion (i.moved m))
  | plugin (p : PluginLine) : Moved m written (.plugin p) (.plugin (p.moved m))
  | error (e : SyntaxError) : Moved m written (.error e) (.error (e.moved m))

/-- So has an item. -/
theorem Item.Relocated.moved {written : Nat → String → Prop} {i i' : Item}
    (h : i.Relocated m.relocation written i') : i.Moved m written i' := by
  cases h with
  | directive h => exact .directive ⟨h.date, h.metadata, h.body.moved, h.span⟩
  | option o => exact .option o
  | inclusion i => exact .inclusion i
  | plugin p => exact .plugin p
  | error e => exact .error e

/-- Blocks add the same items further on. -/
theorem Block.items_moves {written : Nat → String → Prop} (pushed : Pushed) (blocks : List Block)
    (hwritten : ∀ b ∈ blocks, ∀ t ∈ b.head.tokens, ∀ key, b.Writes key →
      written t.span.start key) :
    Checked.Rel (List.Forall₂ (Item.Moved m written)) (items pushed blocks)
      (items (pushed.relocated m.relocation) (blocks.map (relocated m.relocation))) :=
  (items_relocates pushed blocks hwritten fun _ _ l _ => l.keepsIndent_relocation m).mono
    fun _ _ h => h.imp fun _ _ hi => hi.moved

end DoubleEntry
