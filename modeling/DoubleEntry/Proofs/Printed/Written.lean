import DoubleEntry.Proofs.Journal.Transactions
import DoubleEntry.Proofs.Printed.Lexemes

/-!
# What transactions are made of

The names in a transaction that was read from a text are words of the text.

* `Transaction.IsWritten`: the accounts, currencies, tags, links and flags of a transaction are
  words.
* `Line.posting_finds`, `Draft.read_finds`: they are words if all tokens of the lines are.
* `Journal.isWritten_of_mem_directives`: so they are in every transaction of a journal.
-/

namespace DoubleEntry

open Token (IsAccount IsCurrency IsName flagSigns)

/-- The account, the currencies and the flag of the posting are words. -/
structure Posting.IsWritten (p : Posting) : Prop where
  flag : ∀ flag ∈ p.flag, flag ∈ flagSigns
  account : IsAccount p.account.toList
  units : ∀ u ∈ p.units, ∀ c ∈ u.currency?, IsCurrency c.toList
  cost : ∀ cost ∈ p.cost, ∀ c ∈ cost.currency, IsCurrency c.toList
  price : ∀ q ∈ p.price, IsCurrency q.amount.currency.toList

/-- The names are words, without repetition. -/
def AreNames (names : List String) : Prop :=
  names.Nodup ∧ ∀ name ∈ names, IsName name.toList

/-- All names in the transaction are words. -/
structure Transaction.IsWritten (t : Transaction) : Prop where
  flag : t.flag ∈ flagSigns
  tags : AreNames t.tags
  links : AreNames t.links
  postings : ∀ p ∈ t.postings, p.IsWritten

/-- The token has a text of its kind. -/
def Token.IsWritten (t : Token) : Prop := Token.IsWord t.kind t.text.toList

/-- All tokens of the line have texts of their kinds. -/
def Line.IsWritten (l : Line) : Prop := ∀ t ∈ l.tokens, t.IsWritten

/-- If the reading has a result, it has the property. -/
abbrev ReadsOnly {α : Type} (P : α → Prop) (r : Reading α) : Prop :=
  Reads P (fun _ => True) (fun _ => True) r

/-- What is known of the values holds whatever else a reading may end with. -/
theorem Reads.only {α : Type} {P P' : α → Prop} {Q : SyntaxError → Prop}
    {E : ArithmeticError → Prop} {r : Reading α} (h : Reads P Q E r) (hP : ∀ a, P a → P' a) :
    ReadsOnly P' r := h.mono hP (fun _ _ => trivial) fun _ _ => trivial

namespace Line

variable {α : Type} {l l' : Line} {t : Token} {ts : List Token} {P : α → Prop}

/-- A rest of a line has no other tokens than the line. -/
theorem IsWritten.of_within (h : l.IsWritten) (hl : l'.Within l) : l'.IsWritten :=
  fun t ht => h t (mem_of_within hl ht)

theorem IsWritten.tail (h : l.IsWritten) (htokens : l.tokens = t :: ts) :
    (l.withTokens ts).IsWritten := fun u hu => h u (htokens ▸ List.mem_cons_of_mem t hu)

theorem IsWritten.skip (h : l.IsWritten) : (l.withTokens l.tokens.tail).IsWritten :=
  fun u hu => h u (List.mem_of_mem_tail hu)

/-- What is read has a property, and all tokens of the rest have texts of their kinds. -/
def Finds (P : α → Prop) (r : Reading (α × Line)) : Prop :=
  ReadsOnly (fun p => P p.1 ∧ p.2.IsWritten) r

/-- Reading goes on from a rest that is written, too. -/
theorem Finds.bind {β : Type} {r : Reading (α × Line)} {f : α × Line → Reading β} {Q : β → Prop}
    (h : Finds P r)
    (hf : ∀ a rest, P a → rest.IsWritten → ReadsOnly Q (f (a, rest))) : ReadsOnly Q (r >>= f) :=
  Reads.bind h fun p hp => hf p.1 p.2 hp.1 hp.2

/-- A token of a kind has a text that this kind allows. -/
theorem token_finds (h : l.IsWritten) (kind : Token.Kind) (what : Expectation) :
    Finds (fun t => Token.IsWord kind t.text.toList) (l.token kind what) := by
  unfold token
  cases htokens : l.tokens with
  | nil => exact .throw trivial
  | cons t ts =>
    refine .ite (fun hkind => .pure ⟨?_, h.tail htokens⟩) fun _ => .throw trivial
    rw [← hkind]
    exact h t (htokens ▸ List.mem_cons_self)

/-- An account that is read can be written as an account. -/
theorem account_finds (h : l.IsWritten) : Finds (fun a => IsAccount a.toList) l.account :=
  (token_finds h .account _).bind fun _ _ hword hrest => .pure ⟨hword, hrest⟩

/-- A currency that is read can be written as a currency. -/
theorem currency_finds (h : l.IsWritten) : Finds (fun c => IsCurrency c.toList) l.currency :=
  (token_finds h .currency _).bind fun _ _ hword hrest => .pure ⟨hword, hrest⟩

theorem expression_finds (h : l.IsWritten) :
    ReadsOnly (fun p => p.2.val.IsWritten) l.expression :=
  (expression_reads (.refl l)).only fun _ hp => h.of_within hp

theorem finish_finds (l : Line) : ReadsOnly (fun _ => True) l.finish :=
  (finish_reads (E := fun _ => True) (.refl l)).only fun _ _ => trivial

theorem amount_finds (h : l.IsWritten) : Finds (fun a => IsCurrency a.currency.toList) l.amount :=
  (expression_finds h).bind fun _ hrest =>
    (currency_finds hrest).bind fun _ _ hcurrency hrest => .pure ⟨hcurrency, hrest⟩

/-- The currency of the units, if there is one, can be written. -/
theorem units?_finds (h : l.IsWritten) :
    Finds (fun o : Option Units => ∀ u ∈ o, ∀ c ∈ u.currency?, IsCurrency c.toList) l.units? := by
  unfold units?
  refine .ite (fun _ => ?_) fun _ => .ite (fun _ => ?_) fun _ => .pure ⟨by simp, h⟩
  · refine (expression_finds h).bind fun p hrest => .ite (fun _ => ?_) fun _ => ?_
    · refine (currency_finds hrest).bind fun currency _ hcurrency hrest => .pure ⟨?_, hrest⟩
      rintro u ⟨⟩ c ⟨⟩
      exact hcurrency
    · refine .pure ⟨?_, hrest⟩
      rintro u ⟨⟩ c ⟨⟩
  · refine (currency_finds h).bind fun currency _ hcurrency hrest => .pure ⟨?_, hrest⟩
    rintro u ⟨⟩ c ⟨⟩
    exact hcurrency

/-- Whatever parts of a cost are read, its currency can be written. -/
theorem costComponents_finds (double : Bool) (cost : Cost) (l : Line) (h : l.IsWritten)
    (hcost : ∀ c ∈ cost.currency, IsCurrency c.toList) :
    Finds (fun cost : Cost => ∀ c ∈ cost.currency, IsCurrency c.toList)
      (l.costComponents double cost) := by
  rw [costComponents]
  split
  · exact .throw trivial
  · rename_i t ts htokens
    have htail := h.tail htokens
    have hsize := size_withTokens_lt htokens
    refine .ite (fun _ => .pure ⟨hcost, htail⟩) fun _ => .ite (fun _ => ?_) fun _ => ?_
    · refine (expression_finds h).bind fun p hrest => ?_
      obtain ⟨n, rest, hlt⟩ := p
      refine costComponents_finds double _ rest hrest ?_
      split <;> exact hcost
    · split
      · exact costComponents_finds double _ _ htail hcost
      · exact costComponents_finds double _ _ htail hcost
      · refine (expression_finds htail).bind fun p hrest => ?_
        obtain ⟨n, rest, hlt⟩ := p
        exact costComponents_finds double _ rest hrest hcost
      · next hkind =>
        refine costComponents_finds double _ _ htail ?_
        rintro c ⟨⟩
        have hword := h t (htokens ▸ List.mem_cons_self)
        rwa [Token.IsWritten, hkind] at hword
      · have hdate : ReadsOnly (fun _ => True) (dateValue t) :=
          (dateValue_reads (E := fun _ => True) (htokens ▸ List.mem_cons_self)).only fun _ => id
        exact hdate.bind fun d _ => costComponents_finds double _ _ htail hcost
      · exact costComponents_finds double _ _ htail hcost
      · exact .throw trivial
termination_by l.size
decreasing_by all_goals omega

theorem cost?_finds (h : l.IsWritten) :
    Finds (fun o : Option Cost => ∀ cost ∈ o, ∀ c ∈ cost.currency, IsCurrency c.toList)
      l.cost? := by
  have hcost (double : Bool) : Finds (fun cost : Cost => ∀ c ∈ cost.currency, IsCurrency c.toList)
      ((l.withTokens l.tokens.tail).costComponents double {}) :=
    costComponents_finds double {} _ h.skip (by simp)
  unfold cost?
  split
  · exact (hcost false).bind fun cost _ hcost hrest => .pure ⟨by rintro _ ⟨⟩; exact hcost, hrest⟩
  · exact (hcost true).bind fun cost _ hcost hrest => .pure ⟨by rintro _ ⟨⟩; exact hcost, hrest⟩
  · exact .pure ⟨by simp, h⟩

theorem price?_finds (h : l.IsWritten) :
    Finds (fun o : Option Price => ∀ q ∈ o, IsCurrency q.amount.currency.toList) l.price? := by
  unfold price?
  split
  · exact (amount_finds h.skip).bind fun a _ ha hrest => .pure ⟨by rintro _ ⟨⟩; exact ha, hrest⟩
  · exact (amount_finds h.skip).bind fun a _ ha hrest => .pure ⟨by rintro _ ⟨⟩; exact ha, hrest⟩
  · exact .pure ⟨by simp, h⟩

/-- The flag that a flag token writes is one. -/
theorem flagValue_mem (h : t.IsWritten) : flagValue t ∈ flagSigns := by
  unfold flagValue
  split
  · decide
  · next hkind =>
    rw [Token.IsWritten, hkind] at h
    obtain ⟨flag, hflag, htext⟩ := h
    rw [htext]
    exact hflag
  · decide

/-- The account, the currencies and the flag of a posting that is read are words. -/
theorem posting_finds (h : l.IsWritten) : ReadsOnly Posting.IsWritten l.posting := by
  have hflag : (∀ flag ∈ l.postingFlag?.1, flag ∈ flagSigns) ∧ l.postingFlag?.2.IsWritten := by
    unfold postingFlag?
    split
    · rename_i t ts htokens
      split
      · refine ⟨?_, h.tail htokens⟩
        rintro flag ⟨⟩
        exact flagValue_mem (h t (htokens ▸ List.mem_cons_self))
      · exact ⟨by simp, h⟩
    · exact ⟨by simp, h⟩
  refine (account_finds hflag.2).bind fun account _ haccount hrest => ?_
  refine (units?_finds hrest).bind fun units _ hunits hrest => ?_
  refine (cost?_finds hrest).bind fun cost _ hcost hrest => ?_
  refine (price?_finds hrest).bind fun price rest hprice _ => ?_
  refine rest.finish_finds.bind fun _ _ => .pure ?_
  exact ⟨hflag.1, haccount, hunits, hcost, hprice⟩

end Line

/-- A name that is new may be added to others. -/
theorem AreNames.append {names : List String} (h : AreNames names) {name : String}
    (hnew : name ∉ names) (hname : IsName name.toList) : AreNames (names ++ [name]) := by
  refine ⟨List.nodup_append.2 ⟨h.1, List.nodup_singleton name, ?_⟩, fun other hother => ?_⟩
  · rintro a ha b hb rfl
    obtain rfl := List.mem_singleton.1 hb
    exact hnew ha
  · obtain hother | hother := List.mem_append.1 hother
    · exact h.2 other hother
    · obtain rfl := List.mem_singleton.1 hother
      exact hname

namespace Draft

variable {d : Draft} {l : Line}

/-- What was read of the transaction is made of words. -/
def IsWritten (d : Draft) : Prop := d.transaction.IsWritten

theorem IsWritten.addTag (h : d.IsWritten) {tag : String} (htag : IsName tag.toList) :
    (d.addTag tag).IsWritten := by
  unfold Draft.addTag
  split
  · exact h
  · next hnew => exact { h with tags := h.tags.append hnew htag }

theorem IsWritten.addLink (h : d.IsWritten) {link : String} (hlink : IsName link.toList) :
    (d.addLink link).IsWritten := by
  unfold Draft.addLink
  split
  · exact h
  · next hnew => exact { h with links := h.links.append hnew hlink }

/-- The tags and links of a line are names, and none is taken twice. -/
theorem IsWritten.readTags (h : d.IsWritten) (hl : l.IsWritten) : (d.readTags l).1.IsWritten := by
  have hname {t : Token} (ht : t ∈ l.tokens.takeWhile isTagOrLink) :
      IsName (Line.signedName t).toList := by
    have hkind := List.mem_takeWhile_imp ht
    have hword := hl t ((List.takeWhile_prefix _).subset ht)
    unfold isTagOrLink at hkind
    unfold Token.IsWritten at hword
    rw [Line.signedName, String.toList_ofList]
    split at hkind
    · next htag => rwa [htag] at hword
    · next hlink => rwa [hlink] at hword
    · cases hkind
  refine List.foldlRecOn (motive := IsWritten) _ _ h fun d hd t ht => ?_
  split
  · exact hd.addTag (hname ht)
  · exact hd.addLink (hname ht)

theorem IsWritten.addMetadata (h : d.IsWritten) (indent : Nat) (key : String)
    (value : MetaValue) : (d.addMetadata indent key value).IsWritten := by
  unfold Draft.addMetadata
  simp only
  split
  · refine { h with postings := fun p hp => ?_ }
    obtain ⟨i, hi, rfl⟩ := List.mem_iff_getElem.1 hp
    rw [List.length_modify] at hi
    have hold := h.postings _ (List.getElem_mem hi)
    rw [List.getElem_modify]
    split
    · exact { hold with }
    · exact hold
  · exact h

/-- Whatever an indented line adds to a transaction is made of words. -/
theorem readLine_finds (h : d.IsWritten) (hl : l.IsWritten) :
    ReadsOnly IsWritten (d.readLine l) := by
  unfold readLine
  split
  · exact .pure h
  · refine .ite (fun _ => ?_) fun _ => .ite (fun _ => ?_) fun _ => .ite (fun _ => ?_) fun _ =>
      .ite (fun _ => ?_) fun _ => .throw trivial
    · exact l.finish_finds.bind fun _ _ => .pure h
    · have hentry : ReadsOnly (fun _ => True) l.keyValue :=
        (Line.keyValue_reads (.refl l)).only fun _ => id
      exact hentry.bind fun e _ => .pure (h.addMetadata _ _ _)
    · exact (Line.finish_finds _).bind fun _ _ => .pure (h.readTags hl)
    · refine (Line.posting_finds hl).bind fun p hp => .pure { h with postings := ?_ }
      intro q hq
      obtain hq | hq := List.mem_append.1 hq
      · exact h.postings q hq
      · obtain rfl := List.mem_singleton.1 hq
        exact hp

/-- What the first line of a transaction says is made of words. -/
theorem readHead_finds {flag : Char} (hflag : flag ∈ flagSigns) (hl : l.IsWritten) :
    ReadsOnly IsWritten (readHead flag l) := by
  have hstart (payee : Option String) (narration : String) :
      IsWritten { transaction := { flag, payee, narration } } := {
    flag := hflag
    tags := ⟨List.nodup_nil, by simp⟩
    links := ⟨List.nodup_nil, by simp⟩
    postings := by simp }
  have hrest (n : Nat) : (l.withTokens (l.tokens.drop n)).IsWritten :=
    fun t ht => hl t (List.mem_of_mem_drop ht)
  have htags (payee : Option String) (narration : String) (l : Line) (hl : l.IsWritten) :
      ReadsOnly IsWritten ((readTags { transaction := { flag, payee, narration } } l).2.finish >>=
        fun _ => pure (readTags { transaction := { flag, payee, narration } } l).1) :=
    (Line.finish_finds _).bind fun _ _ => .pure ((hstart payee narration).readTags hl)
  unfold readHead
  simp only [pure_bind]
  split
  · exact htags _ _ _ (hrest _)
  · exact htags _ _ _ (hrest _)
  · exact htags _ _ _ (hrest _)
  · exact Reads.bind (P := fun _ => True) (.throw trivial) fun _ _ => htags _ _ _ (hrest _)

/-- A transaction is made of words if its lines and what is pushed are. -/
theorem read_finds {pushed : Pushed} (hpushed : ∀ tag ∈ pushed.tags, IsName tag.1.toList)
    {flag : Char} (hflag : flag ∈ flagSigns) (hl : l.IsWritten) {body : List Line}
    (hbody : ∀ l ∈ body, l.IsWritten) : ReadsOnly IsWritten (read pushed flag l body) := by
  refine (readHead_finds hflag hl).bind fun d hd => ?_
  refine (Reads.foldlM (fun l hl d hd => readLine_finds hd (hbody l hl)) hd).bind fun d hd => ?_
  refine .pure (List.foldlRecOn (motive := IsWritten) _ _ hd fun d hd tag htag => ?_)
  exact hd.addTag (hpushed tag htag)

end Draft

/-- The lexer gives each token a text that its kind allows. -/
theorem Token.isWritten_of_mem_scan {text : String} {t : Token} (ht : t ∈ Token.scan text) :
    t.IsWritten := Token.isWord_of_mem_scanFrom ht

/-- The flag after the date of a transaction is one, and the tokens after it are left. -/
theorem Block.Starts.isWritten {l rest : Line} {flag : Char} (h : Starts l flag rest)
    (hl : l.IsWritten) : flag ∈ flagSigns ∧ rest.IsWritten := by
  cases h with
  | flag htokens _ =>
    exact ⟨Line.flagValue_mem (hl _ (htokens ▸ List.mem_cons_self)), hl.tail htokens⟩
  | string => exact ⟨by decide, hl⟩

/-- All names in a transaction that was read from a text are words. -/
theorem Journal.isWritten_of_mem_directives {text : String} {j : Journal}
    (h : (ofText text).value? = some j) {d : Placed Directive} (hd : d ∈ j.directives)
    {t : Transaction} (ht : d.value.body = .transaction t) : t.IsWritten := by
  obtain ⟨b, hb, -, pushed, l, flag, rest, draft, hpushed, hdate, hstarts, hread, rfl⟩ :=
    draft_of_mem_directives h hd ht
  have hline {l : Line} (hl : l ∈ b.lines) : l.IsWritten := fun t ht =>
    Token.isWritten_of_mem_scan (Block.subset_scan hb hl ht)
  have hhead : b.uncommented.head.IsWritten := fun t ht =>
    hline List.mem_cons_self t ((List.dropWhile_sublist _).subset ht)
  have hl : l.IsWritten :=
    hhead.of_within ((Line.date_reads (E := fun _ => True) (.refl _)).of_value? hdate)
  obtain ⟨hflag, hrest⟩ := hstarts.isWritten hl
  have htags : ∀ tag ∈ pushed.tags, IsName tag.1.toList := by
    intro tag htag
    obtain ⟨t, ht, hkind, hname⟩ := hpushed tag htag
    have hword := Token.isWritten_of_mem_scan ht
    rw [Token.IsWritten, hkind] at hword
    rw [hname, Line.signedName, String.toList_ofList]
    exact hword
  exact (Draft.read_finds htags hflag hrest fun l hl =>
    hline (List.mem_cons_of_mem b.head hl)).of_value? hread

end DoubleEntry
