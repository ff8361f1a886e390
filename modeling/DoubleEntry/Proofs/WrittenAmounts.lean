import DoubleEntry.Proofs.Booking.Completion
import DoubleEntry.Proofs.Journal.FormulaBlanks
import DoubleEntry.Proofs.Journal.MetadataKeys

/-!
# Which amounts count

The style of numbers is learned from the amounts that are written in a ledger: the units, prices and
costs of postings, and the amounts of assertions and prices. Every one of them counts once, apart
from those that are overlooked: total costs, what stands beside an amount that was filled in, and
all that is written in a transaction with the flag of padding.

* `Directive.allAmounts`, `Directive.overlooked`: what is written in a directive, and what of that
  does not count.
* `Directive.perm_amounts_book`: what counts of a directive after booking, and what is overlooked,
  are all of its amounts.
* `Ledger.count_numberStyle`: how often a number of places counts for a currency.
-/

namespace DoubleEntry

/-! ## Amounts in a directive -/

/-- The currency in which the amount is written, and with how many places. -/
def Amount.places (a : Amount) : Currency × Nat := (a.currency, a.number.scale)

/-- A number of the cost, if it is written with a currency. -/
def Cost.amount? (cost : Cost) (number : Option Decimal) : Option Amount :=
  number.bind fun n => cost.currency.map fun currency => ⟨n, currency⟩

namespace Posting

/-- The price, and the cost of one unit. -/
def quoted (p : Posting) : List Amount :=
  (p.price.map (·.amount)).toList ++ (p.cost.bind fun cost => cost.amount? cost.perUnit).toList

/-- The cost of all units. -/
def totalCost (p : Posting) : List Amount :=
  (p.cost.bind fun cost => cost.amount? cost.total).toList

/-- All amounts of the posting. -/
def allAmounts (p : Posting) : List Amount := p.amount?.toList ++ p.quoted ++ p.totalCost

end Posting

namespace Transaction

/-- Whether the missing amounts can be told. -/
def isCompletable (t : Transaction) : Bool :=
  t.interpolate.run.value?.any fun outcome => outcome.toOption.isSome

/-- The postings as they are understood. If the transaction can be completed, then a number alone is
an amount in the currency that it takes. -/
def understood (t : Transaction) : List Posting :=
  if t.isCompletable then t.settled else t.postings

/-- What does not count of a posting: the cost of all units, and whatever is written there if its
number was filled in. -/
def overlooks (t : Transaction) (p : Posting) : List Amount :=
  p.totalCost ++ if t.isCompletable && !p.hasNumber then p.quoted else []

end Transaction

namespace Directive

/-- The amounts that are written in the directive. -/
def allAmounts (d : Directive) : List Amount :=
  match d.body with
  | .transaction t => t.understood.flatMap Posting.allAmounts
  | .balance b => [b.amount]
  | .price _ amount => [amount]
  | _ => []

/-- Those that do not count. -/
def overlooked (d : Directive) : List Amount :=
  match d.body with
  | .transaction t =>
    if t.flag = Flag.padding then d.allAmounts else t.understood.flatMap t.overlooks
  | _ => []

end Directive

/-! ## What counts -/

theorem flatMap_filter {α β : Type} (p : α → Bool) (f : α → List β) (l : List α) :
    (l.filter p).flatMap f = l.flatMap fun a => if p a then f a else [] := by
  induction l with
  | nil => rfl
  | cons a l ih =>
    rw [List.filter_cons, List.flatMap_cons, ← ih]
    split <;> rfl

/-- What counts of some postings and what is overlooked are all of their amounts. -/
theorem perm_flatMap_amounts {counted : Posting → Bool} {ps : List Posting}
    (h : ∀ p ∈ ps, counted p = false → p.amount? = none) :
    ((ps.filter counted).flatMap (fun p => p.amount?.toList ++ p.quoted) ++
      ps.flatMap fun p => p.totalCost ++ if counted p then [] else p.quoted).Perm
        (ps.flatMap Posting.allAmounts) := by
  rw [flatMap_filter]
  refine (List.flatMap_append_perm ps _ _).trans (List.Perm.flatMap_left ps fun p hp => ?_)
  unfold Posting.allAmounts
  cases hcounted : counted p with
  | true => simp
  | false => simpa [h p hp hcounted] using List.perm_append_comm

namespace Transaction

variable {t : Transaction} {result : Interpolation}

theorem isCompletable_of_ok (h : t.interpolate.run.value? = some (.ok result)) :
    t.isCompletable := by
  rw [isCompletable, h]
  rfl

theorem not_isCompletable_of_error {error : InterpolationError}
    (h : t.interpolate.run.value? = some (.error error)) : t.isCompletable = false := by
  rw [isCompletable, h]
  rfl

theorem flag_completed (h : t.interpolate.run.value? = some (.ok result)) :
    result.transaction.flag = t.flag := by
  obtain ⟨written, leftOver, solved, hfills⟩ := interpolate_gives.1 (Checked.gives_false.2 h)
  rw [hfills.transaction]

/-- The postings that are not marked after completing the transaction are those with a number. -/
theorem filter_completed (hmarks : ∀ p ∈ t.postings, ¬p.isAutomatic)
    (h : t.interpolate.run.value? = some (.ok result)) :
    result.transaction.postings.filter (!·.isAutomatic) = t.settled.filter (·.hasNumber) := by
  obtain ⟨written, leftOver, solved, hfills⟩ := interpolate_gives.1 (Checked.gives_false.2 h)
  have hmarked : ∀ s ∈ t.standIns leftOver solved, (!s.1.isAutomatic) = !s.2 := fun s hs => by
    rw [isAutomatic_standIns hmarks hs]
  calc result.transaction.postings.filter (!·.isAutomatic)
      = ((t.standIns leftOver solved).filter (!·.1.isAutomatic)).map (·.1) := by
        rw [hfills.transaction, List.filter_map]
        rfl
    _ = ((t.standIns leftOver solved).filter (!·.2)).map (·.1) := by
        rw [List.filter_congr hmarked]
    _ = (t.postings.filter (·.hasNumber)).map (·.inContext t.sharedCurrency?) :=
        t.filter_standIns leftOver solved
    _ = t.settled.filter (·.hasNumber) := by
        rw [settled, List.filter_map]
        congr 2
        funext p
        exact (p.hasNumber_inContext _).symm

end Transaction

theorem Posting.amount?_of_not_hasNumber {p : Posting} (h : p.hasNumber = false) :
    p.amount? = none := by
  unfold hasNumber at h
  unfold amount?
  split
  · next hunits => simp [hunits, Units.number?] at h
  · rfl

theorem Ledger.writtenAmounts_transaction {d : Directive} {t : Transaction}
    (h : d.body = .transaction t) : writtenAmounts d =
      if t.flag = Flag.padding then []
      else (t.postings.filter (!·.isAutomatic)).flatMap fun p => p.amount?.toList ++ p.quoted := by
  rw [writtenAmounts, h]
  simp only
  congr 2
  funext p
  rw [Posting.quoted, List.append_assoc]
  congr 3
  cases p.cost with
  | none => rfl
  | some cost =>
    cases hunit : cost.perUnit <;> cases hcurrency : cost.currency <;>
      simp [Cost.amount?, hunit, hcurrency]

namespace Directive

variable {d : Directive} {t : Transaction}

/-- What counts of a completed transaction and what is overlooked are all amounts of it. -/
theorem perm_amounts_of_ok {result : Interpolation} (hbody : d.body = .transaction t)
    (hmarks : ∀ p ∈ t.postings, ¬p.isAutomatic)
    (h : t.interpolate.run.value? = some (.ok result)) :
    (Ledger.writtenAmounts { d with body := .transaction result.transaction } ++
      d.overlooked).Perm d.allAmounts := by
  have hcompletable := Transaction.isCompletable_of_ok h
  have hunderstood : t.understood = t.settled := if_pos hcompletable
  have hoverlooks : t.overlooks = fun p => p.totalCost ++ if p.hasNumber then [] else p.quoted := by
    funext p
    rw [Transaction.overlooks, hcompletable]
    cases p.hasNumber <;> rfl
  rw [Ledger.writtenAmounts_transaction rfl, Transaction.flag_completed h,
    Transaction.filter_completed hmarks h, overlooked, hbody]
  simp only
  split
  · exact .refl _
  · rw [allAmounts, hbody]
    simp only
    rw [hunderstood, hoverlooks]
    exact perm_flatMap_amounts fun p _ => Posting.amount?_of_not_hasNumber

/-- In a transaction that cannot be completed, only total costs are overlooked. -/
theorem perm_amounts_of_error {error : InterpolationError} (hbody : d.body = .transaction t)
    (hmarks : ∀ p ∈ t.postings, ¬p.isAutomatic)
    (h : t.interpolate.run.value? = some (.error error)) :
    (Ledger.writtenAmounts d ++ d.overlooked).Perm d.allAmounts := by
  have hcompletable := Transaction.not_isCompletable_of_error h
  have hunderstood : t.understood = t.postings := if_neg (by simp [hcompletable])
  have hoverlooks : t.overlooks = fun p => p.totalCost ++ if true then [] else p.quoted := by
    funext p
    rw [Transaction.overlooks, hcompletable]
    rfl
  have hfilter : t.postings.filter (!·.isAutomatic) = t.postings.filter fun _ => true := by
    refine List.filter_congr fun p hp => ?_
    simpa using hmarks p hp
  rw [Ledger.writtenAmounts_transaction hbody, overlooked, hbody]
  simp only
  split
  · exact .refl _
  · rw [allAmounts, hbody]
    simp only
    rw [hunderstood, hoverlooks, hfilter]
    exact perm_flatMap_amounts fun p _ => nofun

/-- What counts of a booked directive and what is overlooked are all amounts of the directive. -/
theorem perm_amounts_book {b : Booked} (hmarks : ∀ p ∈ d.postings, ¬p.isAutomatic)
    (h : d.book.value? = some b) :
    (Ledger.writtenAmounts b.directive ++ d.overlooked).Perm d.allAmounts := by
  cases hbody : d.body with
  | transaction t =>
    rw [postings_of_transaction hbody] at hmarks
    rw [book, hbody] at h
    simp only [Checked.value?_bind] at h
    obtain ⟨outcome, hrun, h⟩ := Option.bind_eq_some_iff.1 h
    cases outcome with
    | ok result =>
      obtain rfl := Option.some.inj h
      exact perm_amounts_of_ok hbody hmarks hrun
    | error failure =>
      obtain rfl := Option.some.inj h
      exact perm_amounts_of_error hbody hmarks hrun
  | _ =>
    rw [book, hbody] at h
    obtain rfl := Option.some.inj h
    simp [Ledger.writtenAmounts, overlooked, allAmounts, hbody]

end Directive

/-! ## Ledgers -/

/-- A run over a list makes a result of each element. -/
theorem Checked.forall₂_of_mapM {α β : Type} {f : α → Checked β} {l : List α} {bs : List β}
    (h : (l.mapM f).value? = some bs) : List.Forall₂ (fun a b => (f a).value? = some b) l bs := by
  induction l generalizing bs with
  | nil =>
    obtain rfl := Option.some.inj h
    exact .nil
  | cons a l ih =>
    rw [List.mapM_cons, Checked.value?_bind] at h
    obtain ⟨b, hb, h⟩ := Option.bind_eq_some_iff.1 h
    rw [Checked.value?_bind] at h
    obtain ⟨bs', hbs, h⟩ := Option.bind_eq_some_iff.1 h
    obtain rfl := Option.some.inj h
    exact .cons hb (ih hbs)

theorem perm_amounts_bookAll {l : List Directive} {booked : List Booked}
    (hmarks : ∀ d ∈ l, ∀ p ∈ d.postings, ¬p.isAutomatic)
    (h : (bookAll l).value? = some booked) :
    ((booked.map (·.directive)).flatMap Ledger.writtenAmounts ++
      l.flatMap Directive.overlooked).Perm (l.flatMap Directive.allAmounts) := by
  have hbooked := Checked.forall₂_of_mapM h
  clear h
  induction hbooked with
  | nil => exact .refl _
  | @cons d b l booked hd _ ih =>
    obtain ⟨hmark, hmarks⟩ := List.forall_mem_cons.1 hmarks
    have hhead := d.perm_amounts_book hmark hd
    rw [List.map_cons, List.flatMap_cons, List.flatMap_cons, List.flatMap_cons, List.append_assoc]
    refine (List.Perm.append_left _ (List.perm_append_comm_assoc _ _ _)).trans ?_
    rw [← List.append_assoc]
    exact hhead.append (ih hmarks)

/-- Padding transactions do not count. -/
theorem writtenAmounts_mergePadding {l merged : List Directive} {unused : List DatedPad}
    (h : (mergePadding l).value? = some (merged, unused)) :
    (merged.flatMap Ledger.writtenAmounts).Perm (l.flatMap Ledger.writtenAmounts) := by
  obtain ⟨s, hs, rfl⟩ := mergePadding_gives (Checked.gives_false.2 h)
  have hnone : s.transactions.flatMap Ledger.writtenAmounts = [] := by
    refine List.flatMap_eq_nil_iff.2 fun t ht => ?_
    obtain ⟨pad, asserted, difference, -, rfl⟩ := Padding.exists_pad_of_mem_transactions hs ht
    exact (Ledger.writtenAmounts_transaction rfl).trans (if_pos rfl)
  split
  · exact .refl _
  · refine ((Directive.sort_perm _).flatMap_right _).trans (.of_eq ?_)
    rw [List.flatMap_append, hnone, List.append_nil]

namespace NumberStyle

theorem written_foldl_record (style : NumberStyle) (amounts : List Amount) :
    (amounts.foldl record style).written = (amounts.map Amount.places).reverse ++ style.written := by
  induction amounts generalizing style with
  | nil => rfl
  | cons a amounts ih =>
    rw [List.foldl_cons, ih, List.map_cons, List.reverse_cons, List.append_assoc]
    rfl

end NumberStyle

namespace Ledger

variable {files : Files} {root : String} {loaded : Loaded} {ledger : Ledger}

theorem count_numberStyle_eq (ledger : Ledger) (currency : Currency) (scale : Nat) :
    ledger.numberStyle.count currency scale =
      ((ledger.entries.flatMap writtenAmounts).map Amount.places).count (currency, scale) := by
  rw [numberStyle, NumberStyle.count, NumberStyle.written_foldl_record, List.append_nil,
    List.count_reverse]

/-- What counts of the entries of a ledger and what is overlooked are all amounts that were
written. -/
theorem perm_amounts (hload : (DoubleEntry.load files root).run.value? = some (.ok loaded))
    (hledger : (Ledger.load files root).run.value? = some (.ok ledger)) :
    (ledger.entries.flatMap writtenAmounts ++
      loaded.directives.flatMap Directive.overlooked).Perm
        (loaded.directives.flatMap Directive.allAmounts) := by
  rw [load_value? hload] at hledger
  obtain ⟨ledger', hvalue, hok⟩ := Option.map_eq_some_iff.1 hledger
  obtain rfl := Except.ok.inj hok
  rw [ofLoaded, Checked.value?_bind] at hvalue
  obtain ⟨booked, hbooked, hvalue⟩ := Option.bind_eq_some_iff.1 hvalue
  rw [Checked.value?_bind] at hvalue
  obtain ⟨⟨entries, unused⟩, hmerged, hvalue⟩ := Option.bind_eq_some_iff.1 hvalue
  rw [Checked.value?_bind] at hvalue
  obtain ⟨violations, -, hvalue⟩ := Option.bind_eq_some_iff.1 hvalue
  obtain rfl := Option.some.inj hvalue
  have hsort := Directive.sort_perm loaded.directives
  have hmarks : ∀ d ∈ Directive.sort loaded.directives, ∀ p ∈ d.postings, ¬p.isAutomatic :=
    fun d hd p => not_isAutomatic_of_load hload (hsort.mem_iff.1 hd)
  have hall := perm_amounts_bookAll hmarks hbooked
  refine (List.Perm.append (writtenAmounts_mergePadding hmerged)
    (hsort.flatMap_right _).symm).trans (hall.trans (hsort.flatMap_right _))

theorem count_add_overlooked
    (hload : (DoubleEntry.load files root).run.value? = some (.ok loaded))
    (hledger : (Ledger.load files root).run.value? = some (.ok ledger)) (currency : Currency)
    (scale : Nat) :
    ledger.numberStyle.count currency scale +
        ((loaded.directives.flatMap Directive.overlooked).map Amount.places).count
          (currency, scale) =
      ((loaded.directives.flatMap Directive.allAmounts).map Amount.places).count
        (currency, scale) := by
  rw [count_numberStyle_eq, ← List.count_append, ← List.map_append]
  exact ((perm_amounts hload hledger).map Amount.places).count_eq _

/-- A number of places counts for a currency as often as amounts are written so, without those that
are overlooked. So all of them count exactly if none of them is overlooked. -/
theorem count_numberStyle (hload : (DoubleEntry.load files root).run.value? = some (.ok loaded))
    (hledger : (Ledger.load files root).run.value? = some (.ok ledger)) (currency : Currency)
    (scale : Nat) :
    let written := (loaded.directives.flatMap Directive.allAmounts).map Amount.places
    let overlooked := (loaded.directives.flatMap Directive.overlooked).map Amount.places
    ledger.numberStyle.count currency scale + overlooked.count (currency, scale) =
      written.count (currency, scale) ∧
    (ledger.numberStyle.count currency scale = written.count (currency, scale) ↔
      (currency, scale) ∉ overlooked) := by
  intro written overlooked
  have hcount : ledger.numberStyle.count currency scale + overlooked.count (currency, scale) =
      written.count (currency, scale) := count_add_overlooked hload hledger currency scale
  refine ⟨hcount, ?_⟩
  rw [← List.count_eq_zero, ← hcount]
  omega

end Ledger

/-! ## A total cost -/

/-- The files of a ledger that has only one. -/
def Files.alone (text : String) : Files where
  resolve path := .ok path
  texts := [("/main", text)]
  failure _ := .notFound

/-- A ledger of one file that is one directive. -/
theorem load_alone {text : String} {d : Directive} (h : Directive.ofText? text = some d) :
    ∃ loaded, (load (.alone text) "/main").run.value? = some (.ok loaded) ∧
      loaded.directives = [d.inFile "/main"] ∧ loaded.rootPath? = some "/main" := by
  obtain ⟨placed, hj, rfl⟩ := Directive.exists_placed_of_ofText? h
  let root : Visit := ⟨"/main", []⟩
  have hroot : (Files.alone text).resolve "/main" = .ok root.path := rfl
  have hread : (Files.alone text).texts.lookup root.path = some text := rfl
  have hnew : ¬Loaded.has { settings := { filename := some root.path } } root.path := by
    simp [Loaded.has]
  rw [load_run hroot, loadFile_eq List.not_mem_nil hnew hread]
  simp only [Checked.value?_bind, hj, Option.bind_some]
  exact ⟨_, rfl, rfl, rfl⟩

/-- A purchase of which the cost of all shares is written. -/
def bulkText : String :=
  "2024-01-02 * \"Buy\"\n  Assets:Shares 2 CORP \x7b\x7b10.50 USD\x7d\x7d\n" ++
    "  Assets:Cash -10.5 USD\n"

/-- The postings of the purchase as they are written. -/
def bulkForms : List PostingForm := [
  { account := "Assets:Shares"
    units := some ⟨.number (.number, ['2']), "CORP"⟩
    cost := some (true, ⟨.number (.number, "10.50".toList), "USD"⟩) },
  { account := "Assets:Cash", units := some ⟨.number (.number, "-10.5".toList), "USD"⟩ }]

/-- The purchase. -/
def bulkPurchase : Directive where
  date := .afterNewYear 1
  metadata := ({} : Metadata).setLine 1
  body := .transaction {
    narration := "Buy"
    postings := [
      { account := "Assets:Shares"
        units := some (.complete ⟨.written "2", "CORP"⟩)
        cost := some { total := some (.written "10.50"), currency := some "USD" }
        metadata := ({} : Metadata).setLine 2 },
      { account := "Assets:Cash"
        units := some (.complete ⟨.written "-10.5", "USD"⟩)
        metadata := ({} : Metadata).setLine 3 }] }

theorem ofText?_bulkText : Directive.ofText? bulkText = some bulkPurchase := by
  have hnames : AreNames [] := ⟨by decide, List.forall_mem_nil _⟩
  have hplain : Token.Plain "Buy".toList := List.all_iff_forall_prop.1 (by decide)
  have hfits : ∀ p ∈ bulkForms, ∀ q ∈ p.quantities, q.Fits := by
    have hnumber (cs : List Char) (c : Currency) : Quantity.Fits ⟨.number (.number, cs), c⟩ :=
      .ofProduct (.ofFactor (.number rfl))
    simp only [bulkForms, PostingForm.quantities, List.forall_mem_cons, List.forall_mem_append]
    simp [hnumber]
  have hwritten : Transaction.IsWritten { narration := "Buy" } :=
    ⟨by decide, hnames, hnames, List.forall_mem_nil _⟩
  have hprintable : Transaction.Printable { narration := "Buy" } :=
    ⟨by rintro s ⟨⟩, hplain, List.forall_mem_nil _⟩
  have hlines : (Line.ofTokens (Token.scan bulkText)).map
      (fun l => (l.indent.isSome, l.number, l.words)) =
        (false, 1, Transaction.words { narration := "Buy" } (.afterNewYear 1)) ::
          (bulkForms.zipIdx 2).map fun p : PostingForm × Nat => (true, p.2, p.1.words) := by
    decide +kernel
  rw [Directive.ofText?_of_words hwritten hprintable rfl hfits hlines]
  decide +kernel

theorem exists_ledger_bulkText : ∃ loaded ledger,
    (load (.alone bulkText) "/main").run.value? = some (.ok loaded) ∧
    (Ledger.load (.alone bulkText) "/main").run.value? = some (.ok ledger) ∧
    loaded.directives = [bulkPurchase.inFile "/main"] := by
  obtain ⟨loaded, hload, hdirectives, hroot⟩ := load_alone ofText?_bulkText
  obtain ⟨booked, hbooked, hsorted, s, hs, hnone, after, hafter⟩ :
      ∃ booked, bookAll [bulkPurchase.inFile "/main"] = .exact booked ∧
        (Directive.IsSorted (booked.map (·.directive)) ∧
        ∃ s, Padding.run (booked.map (·.directive)) = .exact s ∧
          (s.transactions = [] ∧
          ∃ after, Validation.run { documents := (Files.alone bulkText).documentRule "/main" }
            (booked.map (·.directive)) = .exact after)) := by
    decide +kernel
  have hone : Directive.IsSorted loaded.directives := hdirectives ▸ List.pairwise_singleton _ _
  obtain ⟨ledger, hledger⟩ :=
    Ledger.ofLoaded_of_isSorted hone (hdirectives ▸ hbooked) hsorted hs hnone hafter
  refine ⟨loaded, ledger, hload, ?_, hdirectives⟩
  rw [Ledger.load_value? hload, hroot]
  exact congrArg (Option.map Except.ok) hledger

theorem amounts_bulkPurchase :
    ([bulkPurchase.inFile "/main"].flatMap Directive.allAmounts).map Amount.places =
      [("CORP", 0), ("USD", 2), ("USD", 1)] ∧
    ([bulkPurchase.inFile "/main"].flatMap Directive.overlooked).map Amount.places =
      [("USD", 2)] := by
  decide +kernel

/-- One place counts for dollars, because what is paid is written so. -/
theorem Ledger.count_numberStyle_bulkText : ∃ loaded ledger,
    (DoubleEntry.load (.alone bulkText) "/main").run.value? = some (.ok loaded) ∧
    (Ledger.load (.alone bulkText) "/main").run.value? = some (.ok ledger) ∧
    ("USD", 1) ∉ (loaded.directives.flatMap Directive.overlooked).map Amount.places ∧
    ledger.numberStyle.count "USD" 1 = 1 := by
  obtain ⟨loaded, ledger, hload, hledger, hdirectives⟩ := exists_ledger_bulkText
  obtain ⟨hwritten, hoverlooked⟩ := amounts_bulkPurchase
  have hnot : ("USD", 1) ∉ (loaded.directives.flatMap Directive.overlooked).map Amount.places := by
    rw [hdirectives, hoverlooked]
    decide
  refine ⟨loaded, ledger, hload, hledger, hnot, ?_⟩
  rw [(count_numberStyle hload hledger "USD" 1).2.2 hnot, hdirectives, hwritten]
  decide

/-- The cost of the shares is written with two places, which do not count. -/
theorem Ledger.count_bulkText : ∃ loaded ledger,
    (DoubleEntry.load (.alone bulkText) "/main").run.value? = some (.ok loaded) ∧
    (Ledger.load (.alone bulkText) "/main").run.value? = some (.ok ledger) ∧
    ((loaded.directives.flatMap Directive.allAmounts).map Amount.places).count ("USD", 2) = 1 ∧
    ledger.numberStyle.count "USD" 2 = 0 := by
  obtain ⟨loaded, ledger, hload, hledger, hdirectives⟩ := exists_ledger_bulkText
  obtain ⟨hwritten, hoverlooked⟩ := amounts_bulkPurchase
  have hcount := count_add_overlooked hload hledger "USD" 2
  rw [hdirectives, hwritten, hoverlooked] at hcount
  refine ⟨loaded, ledger, hload, hledger, ?_, Nat.succ.inj hcount⟩
  rw [hdirectives, hwritten]
  decide

end DoubleEntry
