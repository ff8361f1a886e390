import Mathlib.Data.List.TakeDrop
import Mathlib.Data.List.TakeWhile
import Mathlib.Data.String.Basic
import DoubleEntry.Proofs.NumberStyle
import DoubleEntry.Report.Balances

/-!
# Lines of the balance report

A line of the balance report that is read back gives the account and the number that stand on it,
however wide the columns are. A line that continues another one gives the empty account, and a line
with a name alone gives nothing.

* `NumberStyle.isWord_format`: the text of a number is one word, also with separators and at any
  precision.
* `BalanceLine.ofText?_line`, `BalanceLine.ofText?_eq_none`: one line.
* `AccountBalance.filterMap_lines`: all lines of an account. The first one states its balance
  (`AccountBalance.headline?`), and the others state none.
-/

namespace DoubleEntry

/-- Whether a text is one word: something, but no white space. -/
def IsWord (s : String) : Prop := s ≠ "" ∧ ∀ c ∈ s.toList, Unicode.isSpace c = false

/-! ## The text of a number -/

/-- Whether the character can stand in a number. -/
def IsNumeral (c : Char) : Prop := c.isDigit ∨ c = '-' ∨ c = '.' ∨ c = ','

theorem IsNumeral.not_isSpace {c : Char} (h : IsNumeral c) : Unicode.isSpace c = false := by
  rcases h with h | rfl | rfl | rfl
  · have hrange : 48 ≤ c.toNat ∧ c.toNat ≤ 57 := by
      simpa [Char.isDigit, UInt32.le_iff_toNat_le] using h
    simp only [Unicode.isSpace, Unicode.spaceRanges, List.any_eq_false, List.mem_cons,
      List.not_mem_nil, or_false]
    rintro ⟨first, last⟩ hmem
    simp only [Prod.mk.injEq] at hmem
    simp only [decide_eq_true_eq]
    omega
  · rfl
  · rfl
  · rfl

namespace Decimal

theorem isNumeral_of_mem_toChars {a : Decimal} {c : Char} (h : c ∈ a.toChars) : IsNumeral c := by
  obtain hminus | hdigit | hpoint := of_mem_toChars h
  · exact .inr (.inl hminus)
  · exact .inl hdigit
  · exact .inr (.inr (.inl hpoint))

theorem toChars_ne_nil (a : Decimal) : a.toChars ≠ [] := by
  simp [toChars, Nat.toDigits_ne_nil]

end Decimal

namespace NumberStyle

/-- The text of a number is one word. -/
theorem isWord_format (style : NumberStyle) (number : Decimal) (currency : Currency) :
    IsWord (style.format number currency) := by
  have hfilter := style.filter_format number currency
  refine ⟨fun h => ?_, fun c hc => ?_⟩
  · rw [h] at hfilter
    exact (style.atPrecision number currency).toChars_ne_nil hfilter.symm
  · by_cases hcomma : c = ','
    · exact IsNumeral.not_isSpace (.inr (.inr (.inr hcomma)))
    · have hmem : c ∈ (style.format number currency).toList.filter (· ≠ ',') :=
        List.mem_filter.2 ⟨hc, decide_eq_true hcomma⟩
      rw [hfilter] at hmem
      exact (Decimal.isNumeral_of_mem_toChars hmem).not_isSpace

end NumberStyle

/-! ## One line -/

namespace BalanceLine

/-- The part of a line in which the number is looked for: from the first blank on. -/
def afterName (line : String) : List Char := line.toList.dropWhile (· ≠ ' ')

theorem ofText?_eq (line : String) :
    ofText? line =
      if (((afterName line).dropWhile Unicode.isSpace).takeWhile (!Unicode.isSpace ·)).isEmpty then
        none
      else
        some ⟨String.ofList (line.toList.takeWhile (· ≠ ' ')),
          String.ofList (((afterName line).dropWhile Unicode.isSpace).takeWhile
            (!Unicode.isSpace ·))⟩ := by
  unfold ofText?
  rw [List.span_eq_takeWhile_dropWhile]
  rfl

/-- A text without blanks is no line with a number. -/
theorem ofText?_eq_none {name : String} (h : ' ' ∉ name.toList) : ofText? name = none := by
  have hrest : afterName name = [] :=
    List.dropWhile_eq_nil_iff.2 fun c hc => by
      simpa using fun hblank : c = ' ' => h (hblank ▸ hc)
  rw [ofText?_eq, hrest]
  rfl

theorem toList_line (widths : Nat × Nat) (name : String) (cell : String × Currency) :
    (AccountBalance.line widths name cell).toList =
      name.toList ++ ' ' :: (List.replicate (widths.1 - name.length + (widths.2 - cell.1.length)) ' '
        ++ (cell.1.toList ++ ' ' :: cell.2.toList)) := by
  simp only [AccountBalance.line, AccountBalance.blanks, String.toList_append, String.toList_ofList,
    List.append_assoc]
  have hone : " ".toList = [' '] := rfl
  have hblanks (n : Nat) (l : List Char) :
      List.replicate n ' ' ++ ([' '] ++ l) = ' ' :: (List.replicate n ' ' ++ l) := by
    rw [← List.append_assoc, ← List.replicate_succ', List.replicate_succ, List.cons_append]
  rw [hone, hblanks, ← List.replicate_append_replicate, List.append_assoc]
  rfl

/-- A line with a number gives its name and its number, whatever the widths of the columns. -/
theorem ofText?_line {name : String} {cell : String × Currency} (hname : ' ' ∉ name.toList)
    (hcell : IsWord cell.1) (widths : Nat × Nat) :
    ofText? (AccountBalance.line widths name cell) = some ⟨name, cell.1⟩ := by
  have hline := toList_line widths name cell
  generalize widths.1 - name.length + (widths.2 - cell.1.length) = n at hline
  obtain ⟨first, others, hnumber⟩ : ∃ c cs, cell.1.toList = c :: cs :=
    List.exists_cons_of_ne_nil fun h => hcell.1 (String.toList_eq_nil_iff.1 h)
  have hspace : Unicode.isSpace ' ' = true := rfl
  have hbefore : ∀ c ∈ name.toList, decide (c ≠ ' ') = true := fun c hc => by
    simpa using fun hblank : c = ' ' => hname (hblank ▸ hc)
  have hname : (AccountBalance.line widths name cell).toList.takeWhile (· ≠ ' ') = name.toList := by
    rw [hline, List.takeWhile_append_of_pos hbefore]
    simp
  have hafter : afterName (AccountBalance.line widths name cell) =
      List.replicate (n + 1) ' ' ++ (cell.1.toList ++ ' ' :: cell.2.toList) := by
    rw [afterName, hline, List.dropWhile_append_of_pos hbefore]
    simp [List.replicate_succ]
  have hword : (cell.1.toList ++ ' ' :: cell.2.toList).dropWhile Unicode.isSpace =
      cell.1.toList ++ ' ' :: cell.2.toList := by
    have hfirst : Unicode.isSpace first = false := hcell.2 first (by simp [hnumber])
    simp [hnumber, hfirst]
  have hnumber? : ((afterName (AccountBalance.line widths name cell)).dropWhile
      Unicode.isSpace).takeWhile (!Unicode.isSpace ·) = cell.1.toList := by
    rw [hafter, List.dropWhile_append_of_pos fun c hc => by
      rw [List.eq_of_mem_replicate hc, hspace], hword,
      List.takeWhile_append_of_pos fun c hc => by simp [hcell.2 c hc]]
    simp [hspace]
  rw [ofText?_eq, hname, hnumber?, if_neg (by simp [hnumber]), String.ofList_toList,
    String.ofList_toList]

end BalanceLine

/-! ## All lines of an account -/

namespace AccountBalance

/-- The positions of an inventory in the order of their currencies. -/
def sorted (inv : Inventory) : List Amount :=
  inv.positions.mergeSort fun a b => a.currency ≤ b.currency

theorem cells_ofInventory (style : NumberStyle) (account : Account) (inv : Inventory) :
    (ofInventory style account inv).cells =
      (sorted inv).map fun a => (style.format a.number a.currency, a.currency) := rfl

theorem perm_sorted (inv : Inventory) : (sorted inv).Perm inv.positions := List.mergeSort_perm _ _

theorem pairwise_sorted (inv : Inventory) :
    (sorted inv).Pairwise fun a b => a.currency ≤ b.currency := by
  refine (List.pairwise_mergeSort ?_ ?_ inv.positions).imp of_decide_eq_true
  · intro a b c
    simpa using le_trans
  · intro a b
    simpa using le_total a.currency b.currency

/-- The line with the name of the account, as it is read: the account and its first number. -/
def headline? (b : AccountBalance) : Option BalanceLine :=
  b.cells.head?.map fun cell => ⟨b.account, cell.1⟩

/-- Whether the account can be told from the number on its lines. -/
def IsReadable (b : AccountBalance) : Prop :=
  ' ' ∉ b.account.toList ∧ ∀ cell ∈ b.cells, IsWord cell.1

/-- Of the lines of an account, only the first one is about it. -/
theorem filterMap_lines {b : AccountBalance} (h : b.IsReadable) (widths : Nat × Nat) :
    ((b.lines widths).filterMap BalanceLine.ofText?).filter (·.account ≠ "") =
      b.headline?.toList.filter (·.account ≠ "") := by
  obtain ⟨hname, hcells⟩ := h
  unfold lines headline?
  cases hb : b.cells with
  | nil => simp [BalanceLine.ofText?_eq_none hname]
  | cons cell rest =>
    rw [hb] at hcells
    have hrest : ((rest.map (line widths "")).filterMap BalanceLine.ofText?).filter
        (·.account ≠ "") = [] := by
      rw [List.filter_eq_nil_iff]
      intro l hl
      obtain ⟨text, htext, hl⟩ := List.mem_filterMap.1 hl
      obtain ⟨other, hother, rfl⟩ := List.mem_map.1 htext
      rw [BalanceLine.ofText?_line (by simp) (hcells other (by simp [hother]))] at hl
      obtain rfl := Option.some.inj hl
      simp
    have hfirst := BalanceLine.ofText?_line hname (hcells cell (by simp)) widths
    rw [List.filterMap_cons_some hfirst, ← List.singleton_append, List.filter_append, hrest,
      List.append_nil]
    rfl

/-- The lines of a report that are about an account. -/
theorem filterMap_flatMap_lines {balances : List AccountBalance}
    (h : ∀ b ∈ balances, b.IsReadable) (widths : Nat × Nat) :
    ((balances.flatMap (·.lines widths)).filterMap BalanceLine.ofText?).filter (·.account ≠ "") =
      (balances.filterMap headline?).filter (·.account ≠ "") := by
  induction balances with
  | nil => rfl
  | cons b balances ih =>
    obtain ⟨hb, hbalances⟩ := List.forall_mem_cons.1 h
    rw [List.flatMap_cons, List.filterMap_append, List.filter_append, filterMap_lines hb,
      ih hbalances]
    cases hline : b.headline? with
    | none => simp [List.filterMap_cons_none hline]
    | some line =>
      rw [List.filterMap_cons_some hline, ← List.singleton_append, List.filter_append]
      rfl

end AccountBalance

end DoubleEntry
