import DoubleEntry.Proofs.Journal.Blanked
import DoubleEntry.Proofs.Journal.Steps

/-!
# Lines with errors

A line with an error, and the indented lines below it, could as well be blank: but for the error the
text says the same. That fails only for a line that changes what is pushed before the error is
found.

* `Journal.SameBut`: two journals that say the same, but for one error.
* `Journal.ofText_blanked`: what a text says with a block, and with blank lines in its place.
* `Journal.ofText_blanked_iff`: when a line with an error could as well be blank.
-/

namespace DoubleEntry

variable {r : Relocation}

namespace Journal

/-- The journals say the same, wherever it stands, but one of them has no error of this kind. -/
structure SameBut (cause : SyntaxError.Cause) (j j' : Journal) : Prop where
  directives : j'.directives.map (·.value) = j.directives.map (·.value)
  options : (j'.options.map fun o => (o.key, o.value)) = j.options.map fun o => (o.key, o.value)
  inclusions : j'.inclusions.map (·.path) = j.inclusions.map (·.path)
  plugins : (j'.plugins.map fun p => (p.name, p.config)) =
    j.plugins.map fun p => (p.name, p.config)
  errors : ∃ first last, j.errors.map (·.cause) = first ++ cause :: last ∧
    j'.errors.map (·.cause) = first ++ last

variable {source : String} {first more : List Block} {b : Block}
variable {j : Journal} {said : List Item} {pushed : Pushed} {s : Step} {e : SyntaxError}

/-- What a text says with a block, and with blank lines in its place: what comes after is read where
the block has left what is pushed, or where it was in front of it. -/
theorem ofText_blanked (x : Block.Excerpt source first b) (hj : (ofText source).value? = some j)
    (hrun : (Block.run {} first).value? = some (said, pushed))
    (hs : (b.step pushed).value? = some s) (he : s.item = some (.error e)) :
    ∃ lead more rest rest', j = ⟨lead ++ (said ++ .error e :: rest)⟩ ∧
      (Block.items s.pushed more).value? = some rest ∧
      (Block.items pushed more).value? = some rest' ∧
      (ofText x.blanked).value? =
        some ⟨lead ++ (said ++ rest').map (Item.relocated x.relocation)⟩ := by
  obtain ⟨blanks, more, hblanks, hmore, hblocks, hblocks'⟩ := x.ofLines_eq
  obtain ⟨lead, items, hlead, hitems, rfl⟩ := value?_ofTokens.1 hj
  rw [hblocks] at hlead hitems
  obtain ⟨said', pushed', _, hrun', hentry, rfl⟩ := Block.value?_items_append.1 hitems
  obtain ⟨rfl, rfl⟩ := Prod.mk.inj (Option.some.inj (hrun'.symm.trans hrun))
  obtain ⟨rest, hrest, rfl⟩ := (Block.value?_items_cons hs he).1 hentry
  obtain ⟨rest', hrest'⟩ := (Block.exists_items_iff pushed' more).2
    ((Block.exists_items_iff s.pushed more).1 ⟨rest, hrest⟩)
  refine ⟨lead.toList, more, rest, rest', rfl, hrest, hrest', ?_⟩
  -- The other blocks say the same where they go.
  have hkept : (Block.items {} (first ++ more)).value? = some (said' ++ rest') :=
    Block.value?_items_append.2 ⟨said', pushed', rest', hrun, hrest', rfl⟩
  have hindent : ∀ b ∈ first ++ more, ∀ l ∈ b.body, l.KeepsIndent x.relocation := by
    intro b hb l hl
    rcases List.mem_append.1 hb with hb | hb
    · rw [Line.KeepsIndent, x.relocated_eq_self hb (List.mem_cons_of_mem _ hl)]
    · exact hmore b hb l hl
  obtain ⟨items', hitems', rfl⟩ := (Block.items_relocated
    (Relocation.keepsLines_blanked x.before x.entry) {} _ hindent).value? hkept
  change (Block.items {} ((first ++ more).map (Block.relocated x.relocation))).value? = _ at hitems'
  rw [List.map_append, x.map_relocated] at hitems'
  obtain ⟨said, pushed, last, hsaid, hlast, hsum⟩ := Block.value?_items_append.1 hitems'
  refine value?_ofTokens.2 ⟨lead, _, ?_, Eq.trans ?_ hitems', rfl⟩
  · rw [hblocks']
    exact hlead
  · rw [hblocks', hitems', ← hsum]
    refine Block.value?_items_append.2 ⟨said, pushed, last, hsaid, ?_, rfl⟩
    rw [Block.items_blank hblanks]
    exact hlast

/-- What items of a kind say, at their new places and without an error. -/
theorem values_relocated {α β : Type} {select : Item → Option α} (move : α → α) (value : α → β)
    (hselect : ∀ i, select (i.relocated r) = (select i).map move)
    (hvalue : ∀ a, value (move a) = value a) (herror : select (.error e) = none)
    (lead said rest : List Item) :
    ((lead ++ (said ++ rest).map (Item.relocated r)).filterMap select).map value =
      ((lead ++ (said ++ .error e :: rest)).filterMap select).map value := by
  have hmoved := filterMap_relocated hselect (said ++ rest)
  have hsame (as : List α) : (as.map move).map value = as.map value := by
    rw [List.map_map]
    exact congrArg (List.map · as) (funext hvalue)
  rw [List.filterMap_append, List.map_append, hmoved, hsame]
  simp only [List.filterMap_append, List.filterMap_cons, herror, List.map_append]

theorem causes_relocated (r : Relocation) (items : List Item) :
    Item.causes (items.map (Item.relocated r)) = Item.causes items := by
  have herrors : errors ⟨items.map (Item.relocated r)⟩ =
      (errors ⟨items⟩).map (SyntaxError.relocated r) := errors_relocated ⟨items⟩
  rw [Item.causes, herrors, List.map_map]
  rfl

theorem causes_error (said rest : List Item) (e : SyntaxError) :
    Item.causes (said ++ .error e :: rest) = Item.causes said ++ e.cause :: Item.causes rest :=
  Item.causes_append said (.error e :: rest)

theorem sameBut_relocated (r : Relocation) (e : SyntaxError) (lead said rest : List Item) :
    SameBut e.cause ⟨lead ++ (said ++ .error e :: rest)⟩
      ⟨lead ++ (said ++ rest).map (Item.relocated r)⟩ where
  directives := values_relocated (Placed.relocated r) (·.value)
    (fun i => by cases i <;> rfl) (fun _ => rfl) rfl lead said rest
  options := values_relocated (OptionLine.relocated r) (fun o => (o.key, o.value))
    (fun i => by cases i <;> rfl) (fun _ => rfl) rfl lead said rest
  inclusions := values_relocated (IncludeLine.relocated r) (·.path)
    (fun i => by cases i <;> rfl) (fun _ => rfl) rfl lead said rest
  plugins := values_relocated (PluginLine.relocated r) (fun p => (p.name, p.config))
    (fun i => by cases i <;> rfl) (fun _ => rfl) rfl lead said rest
  errors := by
    refine ⟨Item.causes (lead ++ said), Item.causes rest, ?_, ?_⟩
    · rw [← causes_error, List.append_assoc]
      rfl
    · change Item.causes (lead ++ (said ++ rest).map (Item.relocated r)) = _
      rw [Item.causes_append, causes_relocated, ← Item.causes_append, ← List.append_assoc,
        Item.causes_append]

/-- Journals that say the same but for an error that tells nothing of what is pushed tell the same
of what is pushed. -/
theorem SameBut.balance_eq {cause : SyntaxError.Cause} {items items' : List Item}
    (h : SameBut cause ⟨items⟩ ⟨items'⟩) (key : PushKey) :
    Item.balance key items = Item.balance key items' + SyntaxError.balance key [cause] := by
  obtain ⟨first, last, hfirst, hlast⟩ := h.errors
  change Item.causes items = _ at hfirst
  change Item.causes items' = _ at hlast
  rw [Item.balance, Item.balance, hfirst, hlast, ← List.singleton_append]
  simp only [SyntaxError.balance_append]
  omega

/-- The text of a block with an error could as well be blank exactly if the block leaves what is
pushed as it is. Only a `pushtag`, a `poptag` and a `popmeta` may not do so. -/
theorem ofText_blanked_iff (hj : (ofText source).value? = some j)
    (hblocks : Block.ofText source = first ++ b :: more)
    (hrun : (Block.run {} first).value? = some (said, pushed))
    (hs : (b.step pushed).value? = some s) (he : s.item = some (.error e)) :
    Nonempty (Block.Excerpt source first b) ∧
      (∀ x : Block.Excerpt source first b,
        (∃ j', (ofText x.blanked).value? = some j' ∧ j.SameBut e.cause j') ↔ s.pushed = pushed) ∧
      (s.pushed ≠ pushed → ∃ k ∈ Keyword.takesEffectEarly, b.keyword? = some k) := by
  have hcases := (Block.step_of hs).changes_or he
  refine ⟨Block.nonempty_excerpt hblocks, fun x => ?_, fun hne => (hcases.resolve_left hne).2⟩
  obtain ⟨lead, more, rest, rest', rfl, hrest, hrest', hj'⟩ := ofText_blanked x hj hrun hs he
  constructor
  · rintro ⟨j', hvalue, hsame⟩
    obtain rfl := Option.some.inj (hj'.symm.trans hvalue)
    by_contra hne
    obtain ⟨key, hkey⟩ := (hcases.resolve_left hne).1.exists_count_ne
    -- Both journals tell the same of the key, so the block has not changed whether it is open.
    have hjournals := (hsame.balance_eq key).trans
      ((sameBut_relocated x.relocation e lead said rest').balance_eq key).symm
    have hsplit (rest : List Item) : Item.balance key (.error e :: rest) =
        Item.balance key [.error e] + Item.balance key rest :=
      Item.balance_append key [.error e] rest
    have hbalance := Block.items_balance hrest hrest' key
    rw [Item.balance_append, Item.balance_append, Item.balance_append, Item.balance_append,
      hsplit rest, hsplit rest'] at hjournals
    omega
  · intro heq
    rw [heq] at hrest
    obtain rfl := Option.some.inj (hrest.symm.trans hrest')
    exact ⟨_, hj', sameBut_relocated _ e lead said rest⟩

/-- A `pushtag` with something after the tag, and a transaction. -/
def pushedTrip : String := "pushtag #trip oops\n2024-01-01 *\n"

/-- The block of the `pushtag`. -/
def blockOfTrip : Block where
  head :=
    { indent := none
      tokens := [⟨.keyword .pushTag, ⟨0, 7⟩, 1, "pushtag"⟩, ⟨.tag, ⟨8, 13⟩, 1, "#trip"⟩,
        ⟨.error, ⟨14, 18⟩, 1, "oops"⟩]
      ending := ⟨18, 19⟩ }
  body := []

/-- The block of the transaction. -/
def blockOfTravel : Block where
  head :=
    { indent := none
      tokens := [⟨.date, ⟨19, 29⟩, 2, "2024-01-01"⟩, ⟨.star, ⟨30, 31⟩, 2, "*"⟩]
      ending := ⟨31, 32⟩ }
  body := []

/-- The transaction with some tags. -/
def travel (tags : List String) : Directive where
  date := .afterNewYear 0
  metadata := ({} : Metadata).setLine 2
  body := .transaction { tags }

/-- The text of the `pushtag` in front of that of the transaction. -/
def excerptOfTrip : Block.Excerpt pushedTrip [] blockOfTrip where
  before := ""
  entry := "pushtag #trip oops\n"
  after := "2024-01-01 *\n"
  text := by decide +kernel
  whole := .inl rfl
  blocks := by
    rw [Block.ofText, Token.scan_empty]
    rfl
  alone := blockOfTrip
  block := by
    have hscan : Token.scan "pushtag #trip oops\n" =
        blockOfTrip.head.tokens ++ [⟨.newline, ⟨18, 19⟩, 1, "\n"⟩] := by decide +kernel
    rw [hscan]
    exact ⟨rfl, rfl⟩
  ends := .inl ⟨⟨.newline, ⟨18, 19⟩, 1, "\n"⟩, by decide +kernel, rfl, by decide +kernel⟩
  unindented := Token.unindented_scanFrom (by decide +kernel)

theorem ofText_pushedTrip : (ofText pushedTrip).value? =
    some ⟨[.error ⟨.expected .endOfLine "oops", ⟨14, 18⟩⟩,
      .directive ⟨travel ["trip"], ⟨19, 32⟩⟩,
      .error ⟨.unclosedPush (.tag "trip"), ⟨8, 13⟩⟩]⟩ := by
  decide +kernel

theorem step_pushedTrip : (blockOfTrip.step {}).value? =
    some (.fail (({} : Pushed).pushTag "trip" ⟨8, 13⟩)
      ⟨.expected .endOfLine "oops", ⟨14, 18⟩⟩) :=
  rfl

/-- The tag stays pushed although its line has an error, so the line could not be blank. -/
theorem ofText_blanked_iff_pushedTrip :
    Nonempty (Block.Excerpt pushedTrip [] blockOfTrip) ∧
      ∀ x : Block.Excerpt pushedTrip [] blockOfTrip,
        ¬∃ j', (ofText x.blanked).value? = some j' ∧
          (⟨[.error ⟨.expected .endOfLine "oops", ⟨14, 18⟩⟩,
              .directive ⟨travel ["trip"], ⟨19, 32⟩⟩,
              .error ⟨.unclosedPush (.tag "trip"), ⟨8, 13⟩⟩]⟩ : Journal).SameBut
            (.expected .endOfLine "oops") j' := by
  have hblocks : Block.ofText pushedTrip = [] ++ blockOfTrip :: [blockOfTravel] := by
    have hscan : Token.scan pushedTrip =
        blockOfTrip.head.tokens ++ ⟨.newline, ⟨18, 19⟩, 1, "\n"⟩ :: blockOfTravel.head.tokens ++
          [⟨.newline, ⟨31, 32⟩, 2, "\n"⟩] := by decide +kernel
    rw [Block.ofText, hscan]
    rfl
  obtain ⟨hexcerpt, hiff, -⟩ :=
    ofText_blanked_iff ofText_pushedTrip hblocks rfl step_pushedTrip rfl
  refine ⟨hexcerpt, fun x hsame => ?_⟩
  exact absurd (congrArg Pushed.tags ((hiff x).1 hsame)) (List.cons_ne_nil _ _)

/-- The line of the `pushtag` reports an error, and with blank lines in its place the transaction
has no tag. -/
theorem not_sameBut_pushedTrip :
    ∃ s e j j', (blockOfTrip.step {}).value? = some s ∧ s.item = some (.error e) ∧
      (ofText pushedTrip).value? = some j ∧ (ofText excerptOfTrip.blanked).value? = some j' ∧
      ¬j.SameBut e.cause j' := by
  have hblanked : (ofText excerptOfTrip.blanked).value? =
      some ⟨[.directive ⟨travel [], ⟨1, 14⟩⟩]⟩ := by
    decide +kernel
  refine ⟨_, _, _, _, step_pushedTrip, rfl, ofText_pushedTrip, hblanked, fun h => ?_⟩
  have htags : [travel []] = [travel ["trip"]] := h.directives
  exact absurd htags (by decide +kernel)

end Journal

end DoubleEntry
