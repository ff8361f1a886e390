import DoubleEntry.Proofs.Journal.Composition
import DoubleEntry.Proofs.Journal.ReadsBlock

/-!
# Journals at other places

Where lines keep their numbers, a text says the same at other places: no value changes, only the
places of the items do.

* `Relocation.KeepsLines`: every line keeps its number.
* `Item.relocated`, `Journal.relocated`: an item and a journal at their new places.
* `Block.items_relocated`: blocks add the same items at other places.
* `Journal.value?_relocated`: so do the lines of a whole text.
-/

namespace DoubleEntry

variable {r : Relocation}

/-- Every line keeps its number. -/
def Relocation.KeepsLines (r : Relocation) : Prop := ∀ line, r.line line = line

/-- The directive, which stays what it is, at its new place. -/
def Placed.relocated (r : Relocation) (d : Placed Directive) : Placed Directive :=
  { d with span := d.span.relocated r }

/-- The item at its new place. -/
def Item.relocated (r : Relocation) : Item → Item
  | .directive d => .directive (d.relocated r)
  | .option o => .option (o.relocated r)
  | .inclusion i => .inclusion (i.relocated r)
  | .plugin p => .plugin (p.relocated r)
  | .error e => .error (e.relocated r)

/-- The journal with all its items at their new places. -/
def Journal.relocated (r : Relocation) (j : Journal) : Journal := ⟨j.items.map (Item.relocated r)⟩

/-! ## Values -/

section Values

variable {written : String → Prop} (hr : r.KeepsLines)

include hr

/-- A posting whose line keeps its number is the same. -/
theorem Posting.Relocated.eq {p q : Posting} (h : p.Relocated r written q) : q = p := by
  obtain ⟨line, entries, -, hp, hq⟩ := h.metadata
  have hmetadata : q.metadata = p.metadata := by rw [hq, hp, hr]
  rw [h.others, hmetadata]

theorem Transaction.Relocated.eq {t u : Transaction} (h : t.Relocated r written u) : u = t := by
  obtain ⟨hps⟩ := h
  rename_i ps
  obtain rfl : t.postings = ps := by
    rw [← List.forall₂_eq_eq_eq]
    exact hps.imp fun _ _ hp => (hp.eq hr).symm
  rfl

theorem Directive.Body.Relocated.eq {b b' : Body} (h : b.Relocated r written b') : b' = b := by
  cases h with
  | transaction h => rw [h.eq hr]
  | other h => rfl

/-- Only the range of a directive changes as long as the lines keep their numbers. -/
theorem Placed.Relocated.eq {d d' : Placed Directive} (h : d.Relocated r written d') :
    d' = d.relocated r := by
  obtain ⟨⟨date, metadata, body⟩, span⟩ := d
  obtain ⟨⟨date', metadata', body'⟩, span'⟩ := d'
  obtain ⟨line, base, hbase, hbase'⟩ := h.metadata
  obtain rfl : date' = date := h.date
  obtain rfl : body' = body := h.body.eq hr
  obtain rfl : span' = span.relocated r := h.span
  obtain rfl : metadata' = metadata :=
    hbase'.trans ((congrArg base.setLine (hr line)).trans hbase.symm)
  rfl

end Values

/-- So an item at its new place is told from the item alone. -/
theorem Item.Relocated.eq {written : Nat → String → Prop} {i i' : Item} (hr : r.KeepsLines)
    (h : i.Relocated r written i') : i' = i.relocated r := by
  cases h with
  | directive h => exact congrArg Item.directive (h.eq hr)
  | option o => rfl
  | inclusion i => rfl
  | plugin p => rfl
  | error e => rfl

theorem Item.map_relocated {written : Nat → String → Prop} {items items' : List Item}
    (hr : r.KeepsLines) (h : List.Forall₂ (Item.Relocated r written) items items') :
    items' = items.map (Item.relocated r) := by
  induction h with
  | nil => rfl
  | cons hi _ ih => rw [List.map_cons, hi.eq hr, ih]

/-! ## Blocks -/

namespace Block

/-- Blocks whose indented lines stay as far in as they are add the same items. -/
theorem items_relocated (hr : r.KeepsLines) (pushed : Pushed) (blocks : List Block)
    (hindent : ∀ b ∈ blocks, ∀ l ∈ b.body, l.KeepsIndent r) :
    Checked.Rel (fun items items' => items' = items.map (Item.relocated r))
      (items pushed blocks) (items (pushed.relocated r) (blocks.map (relocated r))) := by
  have h : Checked.Rel (List.Forall₂ (Item.Relocated r fun _ _ => True)) (items pushed blocks)
      (items (pushed.relocated r) (blocks.map (relocated r))) :=
    items_relocates pushed blocks (fun _ _ _ _ _ _ => trivial) hindent
  exact h.mono fun _ _ hitems => Item.map_relocated hr hitems

/-- Stray lines give the same error at its new place. -/
theorem stray_relocated (hr : r.KeepsLines) (lines : List Line) :
    Checked.Rel (fun i i' => i'.toList = i.toList.map (Item.relocated r)) (stray lines)
      (stray (lines.map (Line.relocated r))) :=
  (stray_relocates (fun _ _ => True) lines).mono fun _ _ hi => Item.map_relocated hr hi

end Block

/-! ## Journals -/

namespace Journal

/-- The items of a kind, at their new places. -/
theorem filterMap_relocated {α : Type} {select : Item → Option α} {move : α → α}
    (hselect : ∀ i, select (i.relocated r) = (select i).map move) (items : List Item) :
    (items.map (Item.relocated r)).filterMap select = (items.filterMap select).map move := by
  rw [List.filterMap_map, List.map_filterMap]
  exact congrArg (List.filterMap · items) (funext hselect)

variable (j : Journal)

@[simp] theorem directives_relocated :
    (j.relocated r).directives = j.directives.map (Placed.relocated r) :=
  filterMap_relocated (fun i => by cases i <;> rfl) j.items

@[simp] theorem options_relocated :
    (j.relocated r).options = j.options.map (OptionLine.relocated r) :=
  filterMap_relocated (fun i => by cases i <;> rfl) j.items

@[simp] theorem inclusions_relocated :
    (j.relocated r).inclusions = j.inclusions.map (IncludeLine.relocated r) :=
  filterMap_relocated (fun i => by cases i <;> rfl) j.items

@[simp] theorem plugins_relocated :
    (j.relocated r).plugins = j.plugins.map (PluginLine.relocated r) :=
  filterMap_relocated (fun i => by cases i <;> rfl) j.items

@[simp] theorem errors_relocated :
    (j.relocated r).errors = j.errors.map (SyntaxError.relocated r) :=
  filterMap_relocated (fun i => by cases i <;> rfl) j.items

variable {j}

/-- Tokens that write the same lines at other places write the same journal. -/
theorem value?_relocated {tokens tokens' : List Token} (hr : r.KeepsLines)
    (hlines : Line.ofTokens tokens' = (Line.ofTokens tokens).map (Line.relocated r))
    (hindent : ∀ l ∈ Line.ofTokens tokens, l.KeepsIndent r)
    (h : (ofTokens tokens).value? = some j) :
    (ofTokens tokens').value? = some (j.relocated r) := by
  obtain ⟨before, items, hbefore, hitems, rfl⟩ := value?_ofTokens.1 h
  obtain ⟨before', hbefore', hfirst⟩ := (Block.stray_relocated hr _).value? hbefore
  have hbody (b : Block) (hb : b ∈ (Block.ofLines (Line.ofTokens tokens)).2) (l : Line)
      (hl : l ∈ b.body) : l.KeepsIndent r :=
    hindent l (Block.mem_of_mem_lines hb (List.mem_cons_of_mem _ hl))
  obtain ⟨items', hitems', hrest⟩ := (Block.items_relocated hr {} _ hbody).value? hitems
  have hblocks := Block.ofLines_relocated (r := r) (Line.ofTokens tokens)
  rw [← hlines] at hblocks
  refine value?_ofTokens.2 ⟨before', items', ?_, ?_, ?_⟩
  · rw [hblocks]
    exact hbefore'
  · rw [hblocks]
    exact hitems'
  · rw [relocated, hfirst, hrest, List.map_append]

end Journal

end DoubleEntry
