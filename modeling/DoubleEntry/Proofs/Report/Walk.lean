import DoubleEntry.Proofs.Realized
import DoubleEntry.Proofs.Report.Line
import DoubleEntry.Proofs.Sample

/-!
# The walk of the balance report

The balance report walks through the tree of accounts. Each account has its lines once, after those
of the accounts above it, and the lines of a subtree stand together. All currencies begin in one
column.

* `exists_append_filter_append`: what is convex in an order stands together in an ordered list.
* `AccountBalance.pairwise_ofHoldings`, `AccountBalance.perm_ofHoldings`: the balances of a report.
* `AccountBalance.showsAmounts_lines`: the lines of one account.
* `balanceLines_walk`: the lines of the report.
-/

namespace DoubleEntry

/-! ## Parts of ordered lists -/

section Convex

variable {α : Type} {P : α → Bool} {r : α → α → Prop} {l : List α}

theorem filter_eq_takeWhile (h : l.Pairwise fun x y => P y → P x) : l.filter P = l.takeWhile P := by
  induction l with
  | nil => rfl
  | cons x l ih =>
    obtain ⟨hx, hl⟩ := List.pairwise_cons.1 h
    by_cases hP : P x
    · rw [List.filter_cons_of_pos hP, List.takeWhile_cons_of_pos hP, ih hl]
    · rw [List.takeWhile_cons_of_neg hP, List.filter_eq_nil_iff]
      rintro y hy hPy
      rcases List.mem_cons.1 hy with rfl | hy
      · exact hP hPy
      · exact hP (hx y hy hPy)

/-- What has a property stands together, if it is shared by all that comes between. -/
theorem exists_append_filter_append (hbetween : ∀ x y z, P x → P z → r x y → r y z → P y)
    (h : l.Pairwise r) : ∃ before after, l = before ++ l.filter P ++ after := by
  induction l with
  | nil => exact ⟨[], [], rfl⟩
  | cons x l ih =>
    obtain ⟨hx, hl⟩ := List.pairwise_cons.1 h
    by_cases hP : P x
    · have hdown : l.Pairwise fun y z => P z → P y :=
        hl.imp_of_mem fun {y z} hy _ hyz hPz => hbetween x y z hP hPz (hx y hy) hyz
      refine ⟨[], l.dropWhile P, ?_⟩
      rw [List.filter_cons_of_pos hP, filter_eq_takeWhile hdown, List.nil_append, List.cons_append,
        List.takeWhile_append_dropWhile]
    · obtain ⟨before, after, hl⟩ := ih hl
      refine ⟨x :: before, after, ?_⟩
      rw [List.filter_cons_of_neg hP, List.cons_append, List.cons_append, ← hl]

end Convex

/-! ## Lines -/

/-- A line with an amount: a name, blanks, the number as the style shows it, and the currency, which
begins in a column. -/
def IsAmountLine (style : NumberStyle) (column : Nat) (name : String) (a : Amount)
    (line : String) : Prop :=
  ∃ start : List Char, line.toList = start ++ a.currency.toList ∧ start.length = column ∧
    ∃ n, start = name.toList ++ ' ' :: List.replicate n ' ' ++
      (style.format a.number a.currency).toList ++ [' ']

/-- The lines of an account with some amounts: one for each, of which the first shows the name, or
the name alone. -/
inductive ShowsAmounts (style : NumberStyle) (column : Nat) (account : Account) :
    List Amount → List String → Prop
  | nothing : ShowsAmounts style column account [] [account]
  | amounts {a : Amount} {rest : List Amount} {first : String} {others : List String}
      (hfirst : IsAmountLine style column account a first)
      (hothers : List.Forall₂ (IsAmountLine style column "") rest others) :
      ShowsAmounts style column account (a :: rest) (first :: others)

namespace AccountBalance

variable {style : NumberStyle} {widths : Nat × Nat} {h : Holdings}

/-- A name and a number that fit into the columns do not move the currency. -/
theorem isAmountLine_line {name : String} {a : Amount} (hname : name.length ≤ widths.1)
    (hnumber : (style.format a.number a.currency).length ≤ widths.2) :
    IsAmountLine style (widths.1 + widths.2 + 2) name a
      (line widths name (style.format a.number a.currency, a.currency)) := by
  let n := widths.1 - name.length + (widths.2 - (style.format a.number a.currency).length)
  refine ⟨name.toList ++ ' ' :: List.replicate n ' ' ++
    (style.format a.number a.currency).toList ++ [' '], ?_, ?_, n, rfl⟩
  · rw [BalanceLine.toList_line]
    simp [n]
  · simp only [List.length_append, List.length_cons, List.length_replicate, List.length_nil,
      String.length_toList, n]
    omega

theorem showsAmounts_lines {b : AccountBalance} {inv : Inventory}
    (hb : b = ofInventory style b.account inv) (haccount : b.account.length ≤ widths.1)
    (hnumbers : ∀ cell ∈ b.cells, cell.1.length ≤ widths.2) :
    ShowsAmounts style (widths.1 + widths.2 + 2) b.account (sorted inv) (b.lines widths) := by
  have hcells : b.cells =
      (sorted inv).map fun a => (style.format a.number a.currency, a.currency) :=
    (congrArg cells hb).trans (cells_ofInventory style b.account inv)
  rw [hcells] at hnumbers
  rw [lines, hcells]
  cases hinv : sorted inv with
  | nil => exact .nothing
  | cons a rest =>
    rw [hinv, List.forall_mem_map] at hnumbers
    obtain ⟨ha, hrest⟩ := List.forall_mem_cons.1 hnumbers
    refine .amounts (isAmountLine_line haccount ha) ?_
    rw [List.map_map, List.forall₂_map_right_iff, List.forall₂_same]
    exact fun b hb => isAmountLine_line (Nat.zero_le _) (hrest b hb)

theorem mem_ofHoldings {b : AccountBalance} (hb : b ∈ ofHoldings style h) :
    b = ofInventory style b.account (h.inventory b.account) := by
  obtain ⟨⟨account, inv⟩, he, rfl⟩ := List.mem_map.1 ((List.mergeSort_perm _ _).mem_iff.1 hb)
  exact congrArg (ofInventory style account) (Holdings.inventory_of_mem he).symm

theorem perm_ofHoldings (style : NumberStyle) (h : Holdings) :
    ((ofHoldings style h).map (·.account)).Perm h.keys := by
  rw [← Std.TreeMap.map_fst_toList_eq_keys]
  refine ((List.mergeSort_perm _ _).map _).trans (.of_eq ?_)
  rw [List.map_map]
  rfl

theorem pairwise_ofHoldings (style : NumberStyle) (h : Holdings) :
    (ofHoldings style h).Pairwise fun b b' => b.account.isBefore b'.account := by
  refine List.pairwise_mergeSort (fun b b' b'' hb hb' => ?_) (fun b b' => ?_) _
  · exact Account.isBefore_trans hb hb'
  · rw [Bool.or_eq_true]
    exact Account.isBefore_total b.account b'.account

/-- The columns are wide enough for the lines of an account. -/
theorem showsAmounts_report {b : AccountBalance} (hb : b ∈ ofHoldings style h) :
    let columns := AccountBalance.widths (ofHoldings style h)
    ShowsAmounts style (columns.1 + columns.2 + 2) b.account (sorted (h.inventory b.account))
      (b.lines columns) := by
  refine showsAmounts_lines (mem_ofHoldings hb)
    (List.le_max?_getD_of_mem (List.mem_map_of_mem hb)) fun cell hcell => ?_
  refine Nat.le_add_right_of_le (List.le_max?_getD_of_mem ?_)
  exact List.mem_map_of_mem (List.mem_flatMap.2 ⟨b, hb, hcell⟩)

end AccountBalance

/-! ## The report -/

/-- Blocks of lines that walk through the accounts of a tree. -/
structure IsWalk (h : Holdings) (blocks : List (Account × List String)) : Prop where
  /-- No account has two blocks. -/
  nodup : (blocks.map (·.1)).Nodup
  mem_iff : ∀ account, account ∈ blocks.map (·.1) ↔ account ∈ h
  /-- All accounts above one have come before it. -/
  above : ∀ before block after, blocks = before ++ block :: after →
    ∀ top : Account, block.1.isBelow top → top ∈ before.map (·.1)
  /-- A subtree stands together. -/
  together : ∀ top : Account, ∃ before after,
    blocks = before ++ blocks.filter (·.1.isWithin top) ++ after

/-- Blocks in the order of a walk, of a tree in which no account above another one is missing. -/
theorem isWalk_of_pairwise {h : Holdings} {blocks : List (Account × List String)}
    (hsorted : blocks.Pairwise fun b b' => b.1.isBefore b'.1)
    (hperm : (blocks.map (·.1)).Perm h.keys)
    (habove : ∀ a ∈ h, ∀ top : Account, a.isBelow top → top ∈ h) : IsWalk h blocks where
  nodup := hperm.nodup_iff.2 Std.TreeMap.nodup_keys
  mem_iff account := hperm.mem_iff.trans Std.TreeMap.mem_keys
  above before block after hblocks top hbelow := by
    have hmem (account : Account) : account ∈ blocks.map (·.1) ↔ account ∈ h :=
      hperm.mem_iff.trans Std.TreeMap.mem_keys
    have hblock : block.1 ∈ h := (hmem block.1).1 (by simp [hblocks])
    have htop := (hmem top).2 (habove block.1 hblock top hbelow)
    rw [hblocks, List.map_append, List.map_cons, List.mem_append, List.mem_cons] at htop
    rcases htop with hbefore | rfl | hafter
    · exact hbefore
    · exact absurd hbelow (Account.not_isBelow_self _)
    · obtain ⟨later, hlater, rfl⟩ := List.mem_map.1 hafter
      rw [hblocks] at hsorted
      have hbefore := List.rel_of_pairwise_cons (List.pairwise_append.1 hsorted).2.1 hlater
      have hsame := Account.isBefore_antisymm hbefore (Account.isBefore_of_isBelow hbelow)
      rw [hsame] at hbelow
      exact absurd hbelow (Account.not_isBelow_self _)
  together top := exists_append_filter_append
    (fun _ _ _ hx hz hxy hyz => Account.isWithin_of_between hx hz hxy hyz) hsorted

/-- **The report walks the account tree.** Its lines are blocks, one for each account of the tree.
An account comes after all accounts above it, and those within an account stand together. A block
shows what its account holds, in the order of the currencies, and all currencies begin in one
column. -/
theorem balanceLines_walk {entries : List Directive} {h : Holdings} (style : NumberStyle)
    (hh : (Holdings.realized entries).value? = some h) :
    ∃ (blocks : List (Account × List String)) (column : Nat),
      (balanceLines style entries).value? = some (blocks.flatMap (·.2)) ∧ IsWalk h blocks ∧
      ∀ block ∈ blocks, ∃ amounts, amounts.Perm (h.inventory block.1).positions ∧
        (amounts.Pairwise fun a b => a.currency ≤ b.currency) ∧
        ShowsAmounts style column block.1 amounts block.2 := by
  let balances := AccountBalance.ofHoldings style h
  let widths := AccountBalance.widths balances
  refine ⟨balances.map fun b => (b.account, b.lines widths), widths.1 + widths.2 + 2, ?_, ?_, ?_⟩
  · rw [balanceLines, Checked.value?_bind, hh, List.flatMap_map]
    rfl
  · refine isWalk_of_pairwise ?_ ?_ fun a ha top => ?_
    · exact List.pairwise_map.2 (AccountBalance.pairwise_ofHoldings style h)
    · rw [List.map_map]
      exact AccountBalance.perm_ofHoldings style h
    · exact Holdings.mem_of_isBelow (Checked.gives_false.2 hh) ha
  · rw [List.forall_mem_map]
    intro b hb
    exact ⟨AccountBalance.sorted (h.inventory b.account), AccountBalance.perm_sorted _,
      AccountBalance.pairwise_sorted _, AccountBalance.showsAmounts_report hb⟩

/-- An account whose name is that of another one with a hyphen, which comes before a colon. -/
def drawers : List Directive :=
  [(Directive.Body.opening "Assets:Übrig" [] none).on 0,
   (Directive.Body.transaction {
      postings := [
        .plain "Assets-Old" (.ofNat 7) "USD",
        .plain "Assets:Cash" (.written "-12.50") "USD",
        .plain "Assets:Cash" (.ofNat 5) "CHF"] }).on 1]

/-- The walk is not in the order of the names. -/
theorem balanceLines_walk_drawers :
    ∃ h, (Holdings.realized drawers).value? = some h ∧
      h.keys = ["Assets", "Assets-Old", "Assets:Cash", "Assets:Übrig"] ∧
      Account.isBefore "Assets:Übrig" "Assets-Old" ∧
      ∃ (blocks : List (Account × List String)) (column : Nat),
        (balanceLines {} drawers).value? = some (blocks.flatMap (·.2)) ∧ IsWalk h blocks ∧
        ∀ block ∈ blocks, ∃ amounts, amounts.Perm (h.inventory block.1).positions ∧
          (amounts.Pairwise fun a b => a.currency ≤ b.currency) ∧
          ShowsAmounts {} column block.1 amounts block.2 := by
  obtain ⟨h, hh, hkeys⟩ : ∃ h, Holdings.realized drawers = .exact h ∧
      h.keys = ["Assets", "Assets-Old", "Assets:Cash", "Assets:Übrig"] := by decide +kernel
  have hvalue : (Holdings.realized drawers).value? = some h := by rw [hh, Checked.value?_exact]
  exact ⟨h, hvalue, hkeys, by decide +kernel, balanceLines_walk {} hvalue⟩

end DoubleEntry
