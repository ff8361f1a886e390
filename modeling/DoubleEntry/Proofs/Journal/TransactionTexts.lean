import DoubleEntry.Proofs.Journal.Statements
import DoubleEntry.Proofs.Printed.Transactions

/-!
# Texts of one transaction

A transaction is written on a first line and below that on a line for each of its postings. What the
text comes to depends on what is read of these lines, and on the numbers that they have.

* `Token.map_line_scanFrom`: on which lines the words of a text stand.
* `Line.ofTokens_numbered`: lines of words, with their numbers.
* `Directive.ofTokens?_transaction`: a transaction has the postings that are read of its lines.
-/

namespace DoubleEntry

open Token

/-! ## The numbers of lines -/

/-- The line breaks in some words. -/
def newlines (ws : List Word) : Nat := (ws.map fun w => w.2.count '\n').sum

/-- The lines on which words begin if the first of them begins on the line `n`. -/
def lineNumbers : Nat → List Word → List Nat
  | _, [] => []
  | n, w :: ws => n :: lineNumbers (n + w.2.count '\n') ws

@[simp] theorem length_lineNumbers (n : Nat) (ws : List Word) :
    (lineNumbers n ws).length = ws.length := by
  induction ws generalizing n with
  | nil => rfl
  | cons w ws ih => rw [lineNumbers, List.length_cons, ih, List.length_cons]

theorem lineNumbers_append (n : Nat) (ws ws' : List Word) :
    lineNumbers n (ws ++ ws') = lineNumbers n ws ++ lineNumbers (n + newlines ws) ws' := by
  induction ws generalizing n with
  | nil => rfl
  | cons w ws ih =>
    rw [List.cons_append, lineNumbers, lineNumbers, ih, List.cons_append, newlines, newlines,
      List.map_cons, List.sum_cons, Nat.add_assoc]

namespace Token

theorem count_takeWhile_isBlank (cs : List Char) : (cs.takeWhile isBlank).count '\n' = 0 :=
  List.count_eq_zero.2 fun h => absurd (List.mem_takeWhile_imp h) (by decide)

/-- Line breaks are only in words, so the words tell the lines. -/
theorem map_line_scanFrom (pos : Cursor) (cs : List Char) :
    (scanFrom pos cs).map (·.line) = lineNumbers pos.line ((scanFrom pos cs).map word) := by
  induction pos, cs using scanFrom.induct with
  | case1 pos cs h => rw [scanFrom_eq_nil h, List.map_nil, List.map_nil, lineNumbers]
  | case2 pos cs blanks after c rest h kind n hlexeme piece ih =>
    have hblanks : (cs.takeWhile isBlank).count '\n' = 0 := count_takeWhile_isBlank cs
    have hafter (fresh : Bool) : (pos.advance (cs.takeWhile isBlank) fresh).line = pos.line := by
      rw [Cursor.advance, hblanks, Nat.add_zero]
    obtain ⟨hlead, hnone⟩ : (lead pos (cs.takeWhile isBlank) kind).map (·.line) =
        lineNumbers pos.line ((lead pos (cs.takeWhile isBlank) kind).map word) ∧
          newlines ((lead pos (cs.takeWhile isBlank) kind).map word) = 0 := by
      unfold lead
      split
      · rw [List.map_cons, List.map_cons, word_token]
        simp [lineNumbers, newlines, hblanks, Cursor.token]
      · exact ⟨rfl, rfl⟩
    have hnext : (scanFrom (pos.next (cs.takeWhile isBlank) (c :: rest.take n) kind)
        (rest.drop n)).map (·.line) = lineNumbers (pos.line + (c :: rest.take n).count '\n')
          ((scanFrom (pos.next (cs.takeWhile isBlank) (c :: rest.take n) kind)
            (rest.drop n)).map word) := by
      rw [← hafter pos.fresh]
      exact ih
    rw [scanFrom_eq h hlexeme]
    simp only [List.map_append, List.map_cons, lineNumbers_append, hlead, hnone, Nat.add_zero,
      word_token, lineNumbers, hnext]
    rw [Cursor.token, hafter]

end Token

/-! ## Lines of words -/

namespace Line

variable {n : Nat} {tokens ts rest : List Token}

/-- The tokens stand on the lines that their words tell, from `n` on. -/
def NumberedFrom (n : Nat) (tokens : List Token) : Prop :=
  tokens.map (·.line) = lineNumbers n (tokens.map Token.word)

theorem NumberedFrom.append (h : NumberedFrom n (ts ++ rest)) :
    NumberedFrom n ts ∧ NumberedFrom (n + newlines (ts.map Token.word)) rest := by
  rw [NumberedFrom, List.map_append, List.map_append, lineNumbers_append] at h
  exact List.append_inj h (by simp)

theorem NumberedFrom.number {l : Line} (h : NumberedFrom n l.tokens) (hne : l.words ≠ []) :
    l.number = n := by
  obtain ⟨t, ts, htokens⟩ := List.exists_cons_of_ne_nil fun h => hne (congrArg (List.map word) h)
  rw [htokens] at h
  rw [Line.number, htokens]
  exact (List.cons.inj h).1

/-- The words of several lines, all but the first with blanks in front, and their numbers. -/
theorem ofTokens_numbered {first : List Word} {others : List (List Word)}
    (hfirst : first ≠ [] ∧ InLine first)
    (hothers : ∀ ws ∈ others, ws ≠ [] ∧ InLine ws ∧ newlines ws = 0)
    (h : tokens.map Token.word = first ++ ((others.flatMap fun ws =>
      (.newline, ['\n']) :: (.indent, [' ', ' ']) :: ws) ++ [(.newline, ['\n'])]))
    (hlines : NumberedFrom n tokens) :
    ∃ l lines, ofTokens tokens = l :: lines ∧ l.indent = none ∧ l.words = first ∧ l.number = n ∧
      List.Forall₂ (fun l p => l.indent.isSome ∧ l.words = p.1 ∧ l.number = p.2) lines
        (others.zipIdx (n + newlines first + 1)) := by
  induction others generalizing first tokens n with
  | nil =>
    obtain ⟨ts, rest, rfl, rfl, hrest⟩ := List.map_eq_append_iff.1 h
    obtain ⟨newline, rest, rfl, hnewline, hnil⟩ := List.map_eq_cons_iff.1 hrest
    obtain rfl := List.map_eq_nil_iff.1 hnil
    refine ⟨⟨none, ts, newline.span⟩, [], ?_, rfl, rfl, ?_, .nil⟩
    · exact ofTokens_newline hfirst.2 (congrArg Prod.fst hnewline) []
    · exact NumberedFrom.number (l := ⟨none, ts, newline.span⟩) hlines.append.1 hfirst.1
  | cons ws others ih =>
    obtain ⟨⟨hne, hinLine, hnone⟩, hothers⟩ := List.forall_mem_cons.1 hothers
    rw [List.flatMap_cons, List.cons_append, List.cons_append, List.cons_append, List.cons_append,
      List.append_assoc] at h
    obtain ⟨ts, rest, rfl, rfl, hrest⟩ := List.map_eq_append_iff.1 h
    obtain ⟨newline, rest, rfl, hnewline, hrest⟩ := List.map_eq_cons_iff.1 hrest
    obtain ⟨indent, rest, rfl, hindent, hrest⟩ := List.map_eq_cons_iff.1 hrest
    obtain ⟨hts, hnumbers⟩ := hlines.append
    have hnumbers : NumberedFrom (n + newlines (ts.map word) + 1) rest := by
      have hafter : NumberedFrom _ ([newline, indent] ++ rest) := hnumbers
      have hafter := hafter.append.2
      rwa [List.map_cons, List.map_cons, hnewline, hindent] at hafter
    obtain ⟨l, lines, hlines, hindented, hl, hnumber, hall⟩ :=
      ih ⟨hne, hinLine⟩ hothers hrest hnumbers
    have hprepend : prepend indent (l :: lines) = { l with indent := some indent } :: lines := by
      have hkind : indent.kind = .indent := congrArg Prod.fst hindent
      simp only [prepend, hkind]
    refine ⟨⟨none, ts, newline.span⟩, { l with indent := some indent } :: lines, ?_, rfl, rfl,
      NumberedFrom.number (l := ⟨none, ts, newline.span⟩) hts hfirst.1, ?_⟩
    · rw [ofTokens_newline hfirst.2 (congrArg Prod.fst hnewline), ofTokens, List.foldr_cons,
        ← ofTokens, hlines, hprepend]
    · rw [List.zipIdx_cons]
      refine .cons ⟨rfl, hl, hnumber⟩ ?_
      rwa [hnone, Nat.add_zero] at hall

end Line

/-! ## Postings on lines -/

/-- Lines that begin with an account add what is read of them to the postings. -/
theorem Draft.ok?_readLines {body : List Line} (hbody : ∀ l ∈ body, l.nextKind? = some .account)
    (d : Draft) :
    (body.foldlM readLine d).ok?.map (fun d => (d.transaction, d.metadata)) =
      (body.mapM fun l : Line => l.posting.ok?).map fun ps =>
        ({ d.transaction with postings := d.transaction.postings ++ ps }, d.metadata) := by
  induction body generalizing d with
  | nil => simp
  | cons l body ih =>
    obtain ⟨hl, hbody⟩ := List.forall_mem_cons.1 hbody
    obtain ⟨t, ht, hkind⟩ := Option.map_eq_some_iff.1 hl
    obtain ⟨ts, htokens⟩ := List.head?_eq_some_iff.1 ht
    rw [List.foldlM_cons, readLine_of_starts htokens (.inr hkind), List.mapM_cons, bind_assoc,
      Reading.ok?_bind]
    cases l.posting.ok? with
    | none => rfl
    | some p =>
      simp only [pure_bind, Option.bind_some, ih hbody, Option.bind_eq_bind]
      cases body.mapM fun l : Line => l.posting.ok? <;> simp

/-- A transaction has the postings that are read of the lines below the first one. -/
theorem Directive.ofTokens?_transaction {head : Transaction} (hwritten : head.IsWritten)
    (hprintable : head.Printable) (hnone : head.postings = []) {day : Date} {l : Line}
    {body : List Line} {tokens : List Token} (hlines : Line.ofTokens tokens = l :: body)
    (hl : l.indent = none) (hwords : l.words = head.words day)
    (hbody : ∀ l ∈ body, l.indent.isSome ∧ l.nextKind? = some .account) :
    ofTokens? tokens = (body.mapM fun l : Line => l.posting.ok?).map fun ps =>
      ⟨day, ({} : Metadata).setLine l.number, .transaction { head with postings := ps }⟩ := by
  have hwords : l.words = (.date, day.toChars) :: (flagKind head.flag, [head.flag]) ::
      head.headWords := by
    rw [hwords, Transaction.words, hnone]
    simp
  obtain ⟨l₁, hdate, hl₁⟩ := Line.date_yields hwords
  obtain ⟨flag, rest, hrest, hkind, htext, hheadWords⟩ := Line.of_words_cons hl₁
  obtain ⟨hposting, hflag⟩ := Line.flagValue_of_word hkind htext
  have htransaction : flag.isTransactionFlag := by
    rw [Token.isTransactionFlag, hposting]
    rfl
  obtain ⟨date, ts, htokens, hdateKind, -, -⟩ := Line.of_words_cons hwords
  have hread : ∃ span, Block.directive {} ⟨l, body⟩ =
      (do
        let d ← Draft.read {} head.flag (l₁.withTokens rest) body
        return ⟨⟨day, d.metadata.setLine l.number, .transaction d.transaction⟩, span⟩) >>=
          fun d => pure (d, []) := by
    refine ⟨⟨l.here.start, max (lastStop l.ending.stop body) l.here.stop⟩, ?_⟩
    simp only [Block.directive, hdate, pure_bind, hrest, if_pos htransaction, hflag, bind_assoc]
    rfl
  obtain ⟨span, hread⟩ := hread
  have hlinesRead := Draft.ok?_readLines (fun l hl => (hbody l hl).2)
    { transaction := { head with postings := [] } }
  have hdraft : (Draft.read {} head.flag (l₁.withTokens rest) body).ok? =
      (body.foldlM Draft.readLine { transaction := { head with postings := [] } }).ok? := by
    rw [Draft.read, Draft.readHead_of_words hwritten hprintable hheadWords, pure_bind]
    simp
  rw [ofTokens?_of_lines hlines hl (fun l hl => (hbody l hl).1) htokens hdateKind hread,
    Reading.ok?_bind, hdraft]
  -- Only the transaction and the metadata of what is read are in the directive.
  have hmap := congrArg (Option.map fun p : Transaction × Metadata =>
    (⟨day, p.2.setLine l.number, .transaction p.1⟩ : Directive)) hlinesRead
  rw [Option.map_map, Option.map_map] at hmap
  refine Eq.trans ?_ (hmap.trans ?_)
  · cases (body.foldlM Draft.readLine { transaction := { head with postings := [] } }).ok? <;> rfl
  · rfl

end DoubleEntry
