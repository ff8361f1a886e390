import DoubleEntry.Proofs.Journal.Alone
import DoubleEntry.Proofs.Journal.Lines

/-!
# Where directives are read

Every directive of a journal is read from one block of its text, in front of whose first line
comments may stand; a transaction is read from a draft.

* `Pushed.Read`: what a push or a pop makes of what is pushed; `Block.step_cases` says that nothing
  else changes that.
* `Pushed.TagsFrom`: what is pushed was written in the text.
* `Block.exists_of_mem_items`: the block of a directive.
* `Draft.Continues`: what a line below the first makes of the draft of a transaction.
* `Block.ReadsAs`: what a directive is read from.
* `Block.draft_of_directive`: the draft of a transaction.
-/

namespace DoubleEntry

namespace Step

variable {α : Type} {pushed : Pushed} {s : Step}

theorem ofReading_eq {r : Reading α} {done : α → Step}
    (h : (ofReading pushed r done).value? = some s) :
    (∃ a, r.run.value? = some (.ok a) ∧ s = done a) ∨ ∃ e, s = fail pushed e := by
  unfold ofReading at h
  rw [Checked.value?_bind, Option.bind_eq_some_iff] at h
  obtain ⟨outcome, houtcome, h⟩ := h
  cases outcome with
  | ok a => exact .inl ⟨a, houtcome, (Option.some.inj h).symm⟩
  | error e => exact .inr ⟨e, (Option.some.inj h).symm⟩

/-- A push or a pop that is read takes effect, also if the line does not end after it. -/
theorem ofPush_cases {r : Reading (Pushed × Line)} {leftover : List Line}
    (h : (ofPush pushed r leftover).value? = some s) :
    (∃ e, s = fail pushed e) ∨
      ∃ after rest, r.run.value? = some (.ok (after, rest)) ∧
        (s = skip after leftover ∨ rest.finish ≠ pure () ∧ ∃ e, s = fail after e) := by
  unfold ofPush at h
  rw [Checked.value?_bind, Option.bind_eq_some_iff] at h
  obtain ⟨outcome, houtcome, h⟩ := h
  cases outcome with
  | error e => exact .inl ⟨e, (Option.some.inj h).symm⟩
  | ok p =>
    refine .inr ⟨p.1, p.2, houtcome, ?_⟩
    obtain hfinish | hfinish := p.2.finish_eq
    · change (ofReading p.1 p.2.finish _).value? = _ at h
      rw [hfinish] at h
      exact .inl (Option.some.inj h).symm
    · change (ofReading p.1 p.2.finish _).value? = _ at h
      rw [hfinish] at h
      refine .inr ⟨?_, _, (Option.some.inj h).symm⟩
      rw [hfinish]
      nofun

/-- Pushes and pops say no directive. They change what is pushed to what was read, if to anything.
-/
theorem ofPush_eq {r : Reading (Pushed × Line)} {leftover : List Line}
    (h : (ofPush pushed r leftover).value? = some s) :
    (∀ d, s.item ≠ some (.directive d)) ∧
      (s.pushed = pushed ∨ ∃ rest, r.run.value? = some (.ok (s.pushed, rest))) := by
  obtain ⟨e, rfl⟩ | ⟨after, rest, hread, rfl | ⟨-, e, rfl⟩⟩ := ofPush_cases h
  · exact ⟨by simp [fail], .inl rfl⟩
  · exact ⟨by simp [skip], .inr ⟨rest, hread⟩⟩
  · exact ⟨by simp [fail], .inr ⟨rest, hread⟩⟩

end Step

/-! ## Pushed tags -/

theorem Line.token_eq_ok {l rest : Line} {kind : Token.Kind} {what : Expectation} {t : Token}
    (h : (l.token kind what).run.value? = some (.ok (t, rest))) :
    ∃ ts, l.tokens = t :: ts ∧ t.kind = kind ∧ rest = l.withTokens ts := by
  unfold token at h
  split at h
  · rename_i u us htokens
    split at h
    · next hkind =>
      obtain ⟨rfl, rfl⟩ := Prod.mk.inj (Checked.pure_eq_ok.1 h)
      exact ⟨us, htokens, hkind, rfl⟩
    · exact absurd h Checked.throw_ne_ok
  · exact absurd h Checked.throw_ne_ok

theorem Line.date_eq_ok {l rest : Line} {day : Date}
    (h : l.date.run.value? = some (.ok (day, rest))) :
    ∃ t ts, l.tokens = t :: ts ∧ t.kind = .date ∧ rest = l.withTokens ts := by
  obtain ⟨⟨t, rest'⟩, htoken, h⟩ := Checked.bind_eq_ok.1 h
  obtain ⟨ts, htokens, hkind, rfl⟩ := token_eq_ok htoken
  obtain ⟨_, -, h⟩ := Checked.bind_eq_ok.1 h
  obtain ⟨-, rfl⟩ := Prod.mk.inj (Checked.pure_eq_ok.1 h)
  exact ⟨t, ts, htokens, hkind, rfl⟩

/-- Where a line ends, nothing follows but a comment. -/
theorem Line.finish_eq_ok {l : Line} (h : l.finish.run.value? = some (.ok ())) :
    ∀ t ∈ l.tokens, t.kind = .comment := by
  have hfinish : l.finish = if l.afterComment.tokens = [] then return ()
      else throw (l.afterComment.unexpected .endOfLine) := rfl
  rw [hfinish] at h
  split at h
  · next hnil =>
    unfold afterComment at hnil
    cases htokens : l.tokens with
    | nil => simp
    | cons t ts =>
      rw [htokens] at hnil
      simp only at hnil
      split at hnil
      · next hcomment =>
        have hts : ts = [] := hnil
        simpa [hts] using hcomment
      · rw [htokens] at hnil
        cases hnil
  · exact absurd h Checked.throw_ne_ok

namespace Pushed

variable {tokens : List Token} {pushed pushed' : Pushed} {l rest : Line}

/-- The tags that are pushed stand in some tokens. -/
def TagsFrom (tokens : List Token) (pushed : Pushed) : Prop :=
  ∀ tag ∈ pushed.tags, ∃ t ∈ tokens, t.kind = .tag ∧ tag.1 = Line.signedName t

/-- How pushes and pops are read, by their keywords. -/
def read? (pushed : Pushed) (l : Line) : Keyword → Option (Reading (Pushed × Line))
  | .pushTag => some (pushed.readPushTag l)
  | .popTag => some (pushed.readPopTag l)
  | .pushMeta => some (pushed.readPushMetadata l)
  | .popMeta => some (pushed.readPopMetadata l)
  | _ => none

/-- What pushes and pops make of what is pushed, and what they leave of their line. -/
inductive Read (pushed : Pushed) (l : Line) : Keyword → Pushed → Line → Prop
  | pushTag {t : Token} {ts : List Token} (htokens : l.tokens = t :: ts) (hkind : t.kind = .tag) :
    Read pushed l .pushTag (pushed.pushTag (Line.signedName t) t.span) (l.withTokens ts)
  | popTag {t : Token} {ts : List Token} {after : Pushed} (htokens : l.tokens = t :: ts)
    (hpop : pushed.popTag? (Line.signedName t) = some after) :
    Read pushed l .popTag after (l.withTokens ts)
  | pushMeta {t : Token} {ts : List Token} {value : MetaValue} {rest : Line}
    (htokens : l.tokens = t :: ts)
    (hread : l.keyValue.run.value? = some (.ok (Line.keyName t, value)))
    (hfinish : rest.finish.run.value? = some (.ok ())) :
    Read pushed l .pushMeta (pushed.pushMetadata (Line.keyName t) value t.span) rest
  | popMeta {t : Token} {ts : List Token} {after : Pushed} (htokens : l.tokens = t :: ts)
    (hpop : pushed.popMetadata? (Line.keyName t) = some after) :
    Read pushed l .popMeta after (l.withTokens ts)

theorem read_of_readPushMetadata
    (h : (pushed.readPushMetadata l).run.value? = some (.ok (pushed', rest))) :
    pushed.Read l .pushMeta pushed' rest := by
  obtain ⟨⟨t, rest₁⟩, htoken, h⟩ := Checked.bind_eq_ok.1 h
  obtain ⟨ts, htokens, -⟩ := Line.token_eq_ok htoken
  obtain ⟨⟨value, rest₂⟩, hvalue, h⟩ := Checked.bind_eq_ok.1 h
  obtain ⟨_, hfinish, h⟩ := Checked.bind_eq_ok.1 h
  obtain ⟨rfl, rfl⟩ := Prod.mk.inj (Checked.pure_eq_ok.1 h)
  -- The same key, value and end of the line are read from any line with metadata.
  have hkey : l.key.run.value? = some (.ok (Line.keyName t, rest₁)) :=
    Checked.bind_eq_ok.2 ⟨(t, rest₁), htoken, rfl⟩
  have hread : l.keyValue.run.value? = some (.ok (Line.keyName t, value)) :=
    Checked.bind_eq_ok.2 ⟨(Line.keyName t, rest₁), hkey,
      Checked.bind_eq_ok.2 ⟨(value, rest₂), hvalue, Checked.bind_eq_ok.2 ⟨(), hfinish, rfl⟩⟩⟩
  exact .pushMeta htokens hread hfinish

theorem read_of_read? {k : Keyword} {r : Reading (Pushed × Line)} (hr : pushed.read? l k = some r)
    (h : r.run.value? = some (.ok (pushed', rest))) : pushed.Read l k pushed' rest := by
  cases k with
  | pushTag =>
    obtain rfl := Option.some.inj hr
    obtain ⟨⟨t, rest'⟩, htoken, h⟩ := Checked.bind_eq_ok.1 h
    obtain ⟨ts, htokens, hkind, rfl⟩ := Line.token_eq_ok htoken
    obtain ⟨rfl, rfl⟩ := Prod.mk.inj (Checked.pure_eq_ok.1 h)
    exact .pushTag htokens hkind
  | popTag =>
    obtain rfl := Option.some.inj hr
    obtain ⟨⟨t, rest'⟩, htoken, h⟩ := Checked.bind_eq_ok.1 h
    obtain ⟨ts, htokens, -, rfl⟩ := Line.token_eq_ok htoken
    simp only at h
    split at h
    · next hpop =>
      obtain ⟨rfl, rfl⟩ := Prod.mk.inj (Checked.pure_eq_ok.1 h)
      exact .popTag htokens hpop
    · exact absurd h Checked.throw_ne_ok
  | pushMeta =>
    obtain rfl := Option.some.inj hr
    exact read_of_readPushMetadata h
  | popMeta =>
    obtain rfl := Option.some.inj hr
    obtain ⟨⟨t, rest'⟩, htoken, h⟩ := Checked.bind_eq_ok.1 h
    obtain ⟨ts, htokens, -, rfl⟩ := Line.token_eq_ok htoken
    simp only at h
    split at h
    · next hpop =>
      obtain ⟨rfl, rfl⟩ := Prod.mk.inj (Checked.pure_eq_ok.1 h)
      exact .popMeta htokens hpop
    · exact absurd h Checked.throw_ne_ok
  | _ => cases hr

theorem popTag?_eq_some {tag : String} : pushed.popTag? tag = some pushed' ↔
    ∃ tags, eraseLast? (·.1 = tag) pushed.tags = some tags ∧ pushed' = { pushed with tags } := by
  rw [popTag?, Option.bind_eq_bind, Option.bind_eq_some_iff]
  exact exists_congr fun _ => and_congr_right fun _ => Option.some_inj.trans eq_comm

theorem popMetadata?_eq_some {key : String} : pushed.popMetadata? key = some pushed' ↔
    ∃ metadata, eraseLast? (·.1 = key) pushed.metadata = some metadata ∧
      pushed' = { pushed with metadata } := by
  rw [popMetadata?, Option.bind_eq_bind, Option.bind_eq_some_iff]
  exact exists_congr fun _ => and_congr_right fun _ => Option.some_inj.trans eq_comm

theorem TagsFrom.read {k : Keyword} (hpushed : pushed.TagsFrom tokens) (hl : l.tokens ⊆ tokens)
    (h : pushed.Read l k pushed' rest) : pushed'.TagsFrom tokens := by
  cases h with
  | @pushTag t ts htokens hkind =>
    intro tag htag
    obtain htag | htag := List.mem_append.1 htag
    · exact hpushed tag htag
    · obtain rfl := List.mem_singleton.1 htag
      exact ⟨t, hl (htokens ▸ List.mem_cons_self), hkind, rfl⟩
  | popTag htokens hpop =>
    obtain ⟨tags, htags, rfl⟩ := popTag?_eq_some.1 hpop
    exact fun tag htag => hpushed tag (subset_of_eraseLast? htags htag)
  | pushMeta => exact hpushed
  | popMeta htokens hpop =>
    obtain ⟨metadata, -, rfl⟩ := popMetadata?_eq_some.1 hpop
    exact hpushed

end Pushed

/-- A statement after a keyword is no transaction. -/
theorem Line.statement_ne_transaction {keyword : Keyword} {place : Span} {l rest : Line}
    {body : Directive.Body}
    (h : (l.statement keyword place).run.value? = some (.ok (body, rest))) (t : Transaction) :
    body ≠ .transaction t := by
  rintro rfl
  cases keyword with
  | opening =>
    obtain ⟨_, -, h⟩ := Checked.bind_eq_ok.1 h
    obtain ⟨_, -, h⟩ := Checked.bind_eq_ok.1 h
    obtain ⟨_, -, h⟩ := Checked.bind_eq_ok.1 h
    cases Checked.pure_eq_ok.1 h
  | balance =>
    obtain ⟨_, -, h⟩ := Checked.bind_eq_ok.1 h
    obtain ⟨_, -, h⟩ := Checked.bind_eq_ok.1 h
    obtain ⟨_, -, h⟩ := Checked.bind_eq_ok.1 h
    obtain ⟨_, -, h⟩ := Checked.bind_eq_ok.1 h
    cases Checked.pure_eq_ok.1 h
  | closing | commodity =>
    obtain ⟨_, -, h⟩ := Checked.bind_eq_ok.1 h
    cases Checked.pure_eq_ok.1 h
  | pad | price | note | document | event | query | custom =>
    obtain ⟨_, -, h⟩ := Checked.bind_eq_ok.1 h
    obtain ⟨_, -, h⟩ := Checked.bind_eq_ok.1 h
    cases Checked.pure_eq_ok.1 h
  | _ => exact Checked.throw_ne_ok h

/-- The first line of a transaction gives a payee and a narration, and the tags and links after
them. -/
theorem Draft.readHead_eq_ok {flag : Char} {l : Line} {d : Draft}
    (h : (readHead flag l).run.value? = some (.ok d)) :
    ∃ payee narration n, d =
      (readTags { transaction := { flag, payee, narration } }
        (l.withTokens (l.tokens.drop n))).1 := by
  unfold readHead at h
  simp only [pure_bind] at h
  split at h
  · obtain ⟨_, -, h⟩ := Checked.bind_eq_ok.1 h
    exact ⟨_, _, _, (Checked.pure_eq_ok.1 h).symm⟩
  · obtain ⟨_, -, h⟩ := Checked.bind_eq_ok.1 h
    exact ⟨_, _, _, (Checked.pure_eq_ok.1 h).symm⟩
  · obtain ⟨_, -, h⟩ := Checked.bind_eq_ok.1 h
    exact ⟨_, _, _, (Checked.pure_eq_ok.1 h).symm⟩
  · obtain ⟨_, hthrow, -⟩ := Checked.bind_eq_ok.1 h
    exact absurd hthrow Checked.throw_ne_ok

/-- A line does not begin in two ways. -/
theorem Line.not_any_of_all {l : Line} {p q : Token → Bool} (hpq : ∀ t, p t → ¬q t)
    (h : l.tokens.head?.all p) : ¬l.tokens.head?.any q := by
  cases hhead : l.tokens.head? with
  | none => simp
  | some t => simpa [hhead] using hpq t (by simpa [hhead] using h)

theorem Line.not_any_of_any {l : Line} {p q : Token → Bool} (hpq : ∀ t, p t → ¬q t)
    (h : l.tokens.head?.any p) : ¬l.tokens.head?.any q := by
  refine not_any_of_all hpq ?_
  cases hhead : l.tokens.head? with
  | none => rfl
  | some t => simpa [hhead] using h

theorem Line.nextKind?_eq_some_iff {l : Line} {kind : Token.Kind} :
    l.nextKind? = some kind ↔ l.tokens.head?.any (·.kind = kind) := by
  rw [nextKind?]
  cases l.tokens.head? <;> simp

/-- What a line below the first makes of the draft of a transaction, and how the line begins. -/
inductive Draft.Continues (d : Draft) (l : Line) : Draft → Prop
  | comment (hbegins : l.atEnd) : Continues d l d
  | entry {key : String} {value : MetaValue} (hbegins : l.nextKind? = some .metaKey)
    (hread : l.keyValue.run.value? = some (.ok (key, value))) :
    Continues d l (d.addMetadata l.indentWidth key value)
  | names (hbegins : l.tokens.head?.any isTagOrLink)
    (hfinish : (d.readTags l).2.finish.run.value? = some (.ok ())) :
    Continues d l (d.readTags l).1
  | posting {p : Posting}
    (hbegins : l.tokens.head?.any fun t => t.isPostingFlag || t.kind = .account)
    (hread : l.posting.run.value? = some (.ok p)) :
    Continues d l { d with
      transaction.postings := d.transaction.postings ++ [p]
      postingIndent := l.indentWidth }

theorem Draft.continues_of_readLine {d d' : Draft} {l : Line}
    (h : (d.readLine l).run.value? = some (.ok d')) : d.Continues l d' := by
  unfold readLine at h
  split at h
  · next htokens =>
    obtain rfl := Checked.pure_eq_ok.1 h
    exact .comment (by simp [Line.atEnd, htokens])
  · next t ts htokens =>
    split at h
    · next hends =>
      obtain ⟨_, -, h⟩ := Checked.bind_eq_ok.1 h
      obtain rfl := Checked.pure_eq_ok.1 h
      exact .comment (by simpa [Line.atEnd, htokens] using hends)
    · split at h
      · next hkey =>
        obtain ⟨⟨key, value⟩, hread, h⟩ := Checked.bind_eq_ok.1 h
        obtain rfl := Checked.pure_eq_ok.1 h
        exact .entry (by simp [Line.nextKind?, htokens, hkey]) hread
      · split at h
        · next htag =>
          obtain ⟨_, hfinish, h⟩ := Checked.bind_eq_ok.1 h
          obtain rfl := Checked.pure_eq_ok.1 h
          exact .names (by simpa [htokens] using htag) hfinish
        · split at h
          · next hposting =>
            obtain ⟨p, hread, h⟩ := Checked.bind_eq_ok.1 h
            obtain rfl := Checked.pure_eq_ok.1 h
            exact .posting (by simpa [htokens] using hposting) hread
          · exact absurd h Checked.throw_ne_ok

namespace Block

/-- The block without the comments in front of its first line. -/
def uncommented (b : Block) : Block :=
  { b with head := b.head.withTokens (b.head.tokens.dropWhile (·.kind = .comment)) }

/-- Only a block that starts with a date says a directive. -/
theorem directive_of_step {b : Block} {pushed : Pushed} {s : Step} {d : Placed Directive}
    (h : (b.step pushed).value? = some s) (hd : s.item = some (.directive d)) :
    (b.uncommented.directive pushed).run.value? = some (.ok (d, s.leftover)) := by
  have hreading {α : Type} {r : Reading α} {item : α → Item} {leftover : List Line}
      (hitem : ∀ a d, item a ≠ .directive d)
      (h : (Step.ofReading pushed r fun a => ⟨some (item a), pushed, leftover⟩).value? = some s) :
      False := by
    obtain ⟨a, -, rfl⟩ | ⟨e, rfl⟩ := Step.ofReading_eq h
    · exact hitem a d (Option.some.inj hd)
    · cases hd
  unfold step at h
  simp only at h
  split at h
  · obtain rfl := Option.some.inj h
    cases hd
  · rename_i t ts htokens
    split at h
    · obtain ⟨⟨d', leftover⟩, hread, rfl⟩ | ⟨e, rfl⟩ := Step.ofReading_eq h
      · obtain rfl : d' = d := by simpa using hd
        exact hread
      · cases hd
    · exact (hreading (by simp) h).elim
    · exact (hreading (by simp) h).elim
    · exact (hreading (by simp) h).elim
    · exact absurd hd ((Step.ofPush_eq h).1 d)
    · exact absurd hd ((Step.ofPush_eq h).1 d)
    · exact absurd hd ((Step.ofPush_eq h).1 d)
    · exact absurd hd ((Step.ofPush_eq h).1 d)
    all_goals
      obtain rfl := Option.some.inj h
      cases hd

/-- A block that starts with the keyword of a push or a pop is read so; any other block leaves what
is pushed as it is. -/
theorem step_cases {b : Block} {pushed : Pushed} {s : Step}
    (h : (b.step pushed).value? = some s) :
    (s.pushed = pushed ∧ ((∃ e, s = .fail pushed e) ∨ ∀ e, s.item ≠ some (.error e)) ∧
      ∀ t ts k, b.uncommented.head.tokens = t :: ts → t.kind = .keyword k →
        pushed.read? (b.uncommented.head.withTokens ts) k = none) ∨
    ∃ t ts k r, b.uncommented.head.tokens = t :: ts ∧ t.kind = .keyword k ∧
      pushed.read? (b.uncommented.head.withTokens ts) k = some r ∧
      (Step.ofPush pushed r b.body).value? = some s := by
  unfold step at h
  simp only at h
  split at h
  · rename_i htokens
    have htokens : b.uncommented.head.tokens = [] := htokens
    obtain rfl := Option.some.inj h
    exact .inl ⟨rfl, .inr (by simp [Step.skip]), by simp [htokens]⟩
  · rename_i t ts htokens
    have htokens : b.uncommented.head.tokens = t :: ts := htokens
    have hother (hkeeps : s.pushed = pushed ∧
        ((∃ e, s = .fail pushed e) ∨ ∀ e, s.item ≠ some (.error e)))
        (hkind : ∀ l k, t.kind = .keyword k → pushed.read? l k = none) :
        s.pushed = pushed ∧ ((∃ e, s = .fail pushed e) ∨ ∀ e, s.item ≠ some (.error e)) ∧
          ∀ t ts k, b.uncommented.head.tokens = t :: ts → t.kind = .keyword k →
            pushed.read? (b.uncommented.head.withTokens ts) k = none := by
      refine ⟨hkeeps.1, hkeeps.2, fun t' ts' k htokens' hk => hkind _ k ?_⟩
      obtain ⟨rfl, -⟩ := List.cons_eq_cons.1 (htokens.symm.trans htokens')
      exact hk
    have hreading {α : Type} {r : Reading α} {done : α → Step}
        (hdone : ∀ a, (done a).pushed = pushed ∧ ∀ e, (done a).item ≠ some (.error e))
        (h : (Step.ofReading pushed r done).value? = some s) :
        s.pushed = pushed ∧ ((∃ e, s = .fail pushed e) ∨ ∀ e, s.item ≠ some (.error e)) := by
      obtain ⟨a, -, rfl⟩ | ⟨e, rfl⟩ := Step.ofReading_eq h
      · exact ⟨(hdone a).1, .inr (hdone a).2⟩
      · exact ⟨rfl, .inl ⟨e, rfl⟩⟩
    split at h
    · next hkind =>
      exact .inl (hother (hreading (fun _ => ⟨rfl, by simp⟩) h) (by simp [hkind]))
    · next hkind =>
      exact .inl (hother (hreading (fun _ => ⟨rfl, by simp⟩) h) (by simp [hkind, Pushed.read?]))
    · next hkind =>
      exact .inl (hother (hreading (fun _ => ⟨rfl, by simp⟩) h) (by simp [hkind, Pushed.read?]))
    · next hkind =>
      exact .inl (hother (hreading (fun _ => ⟨rfl, by simp⟩) h) (by simp [hkind, Pushed.read?]))
    · next hkind => exact .inr ⟨t, ts, _, _, htokens, hkind, rfl, h⟩
    · next hkind => exact .inr ⟨t, ts, _, _, htokens, hkind, rfl, h⟩
    · next hkind => exact .inr ⟨t, ts, _, _, htokens, hkind, rfl, h⟩
    · next hkind => exact .inr ⟨t, ts, _, _, htokens, hkind, rfl, h⟩
    · next hkind =>
      obtain rfl := Option.some.inj h
      exact .inl (hother ⟨rfl, .inr (by simp [Step.skip])⟩ (by simp [hkind]))
    · next hkind =>
      obtain rfl := Option.some.inj h
      exact .inl (hother ⟨rfl, .inr (by simp [Step.skip])⟩ (by simp [hkind]))
    · next hkind =>
      obtain rfl := Option.some.inj h
      exact .inl (hother ⟨rfl, .inl ⟨_, rfl⟩⟩ (by simp [hkind]))
    · -- The remaining kinds of tokens start nothing.
      obtain rfl := Option.some.inj h
      refine .inl (hother ⟨rfl, .inl ⟨_, rfl⟩⟩ fun l k hk => ?_)
      cases k <;> first | rfl | simp_all

/-- After a block, what is pushed was pushed before it or in its first line. -/
theorem step_tagsFrom {b : Block} {pushed : Pushed} {s : Step} {tokens : List Token}
    (hhead : b.head.tokens ⊆ tokens) (hpushed : pushed.TagsFrom tokens)
    (h : (b.step pushed).value? = some s) : s.pushed.TagsFrom tokens := by
  obtain ⟨heq, -⟩ | ⟨t, ts, k, r, htokens, -, hr, h⟩ := step_cases h
  · rwa [heq]
  · have hrest : ts ⊆ tokens := by
      intro u hu
      have hdrop : u ∈ b.uncommented.head.tokens := htokens ▸ List.mem_cons_of_mem t hu
      exact hhead ((List.dropWhile_sublist _).subset hdrop)
    obtain heq | ⟨rest, hread⟩ := (Step.ofPush_eq h).2
    · rwa [heq]
    · exact hpushed.read hrest (Pushed.read_of_read? hr hread)

/-- Every directive that blocks say is read from one of them, with tags pushed that were written. -/
theorem exists_of_mem_items {tokens : List Token} {pushed : Pushed} {blocks : List Block}
    {said : List Item} (hblocks : ∀ b ∈ blocks, b.head.tokens ⊆ tokens)
    (hpushed : pushed.TagsFrom tokens) (h : (items pushed blocks).value? = some said)
    {d : Placed Directive} (hd : .directive d ∈ said) :
    ∃ b ∈ blocks, ∃ pushed leftover, pushed.TagsFrom tokens ∧
      (b.uncommented.directive pushed).run.value? = some (.ok (d, leftover)) := by
  induction blocks generalizing pushed said with
  | nil =>
    obtain rfl := Option.some.inj h
    simp at hd
  | cons b blocks ih =>
    obtain ⟨hhead, hblocks⟩ := List.forall_mem_cons.1 hblocks
    simp only [items, Checked.value?_bind, Option.bind_eq_some_iff] at h
    obtain ⟨s, hs, after, hafter, rest, hrest, hsaid⟩ := h
    obtain rfl := Option.some.inj hsaid
    simp only [List.mem_append, Option.mem_toList] at hd
    rcases hd with (hd | hd) | hd
    · exact ⟨b, List.mem_cons_self, pushed, s.leftover, hpushed, directive_of_step hs hd⟩
    · obtain ⟨o, ho, hnone, -⟩ := stray_eq s.leftover
      obtain rfl : o = after := by simpa [ho] using hafter
      rw [hd] at hnone
      cases hnone
    · obtain ⟨b', hb', hread⟩ := ih hblocks (step_tagsFrom hhead hpushed hs) hrest hd
      exact ⟨b', List.mem_cons_of_mem b hb', hread⟩

/-- The lines of a block of a text hold tokens of the text. -/
theorem subset_scan {text : String} {b : Block} (hb : b ∈ ofText text) {l : Line}
    (hl : l ∈ b.lines) : l.tokens ⊆ Token.scan text := by
  have hline : l ∈ Line.ofTokens (Token.scan text) := mem_of_mem_lines hb hl
  exact fun t ht => (Line.of_mem_ofTokens hline).mem t (List.mem_append_right _ ht)

/-- What follows the date of a transaction: a flag, or else the strings at once. -/
inductive Starts : Line → Char → Line → Prop
  | flag {l : Line} {t : Token} {ts : List Token} (h : l.tokens = t :: ts)
    (hflag : t.isTransactionFlag) : Starts l (Line.flagValue t) (l.withTokens ts)
  | string (l : Line) : Starts l Flag.okay l

/-- What a directive is read from, after its date: a transaction from the rest of the first line and
all lines below, any other directive with metadata lines below. -/
inductive ReadsAs (pushed : Pushed) (b : Block) (l : Line) :
    Directive.Body → Metadata → List Line → Prop
  | transaction {flag : Char} {rest : Line} {draft : Draft} (hstarts : Starts l flag rest)
    (hread : (Draft.read pushed flag rest b.body).run.value? = some (.ok draft)) :
    ReadsAs pushed b l (.transaction draft.transaction) draft.metadata []
  | statement {body : Directive.Body} {m : Metadata} {stop stop' : Nat} {leftover : List Line}
    (hbody : ∀ t, body ≠ .transaction t)
    (hread : (readMetadata {} stop b.body).run.value? = some (.ok (m, stop', leftover))) :
    ReadsAs pushed b l body m leftover

theorem reads_of_directive {b : Block} {pushed : Pushed} {d : Placed Directive}
    {leftover : List Line} (h : (b.directive pushed).run.value? = some (.ok (d, leftover))) :
    d.span.start = b.head.here.start ∧
      ∃ l m, b.head.date.run.value? = some (.ok (d.value.date, l)) ∧
        ReadsAs pushed b l d.value.body m leftover ∧
        d.value.metadata = pushed.complete m (b.head.tokens.head?.elim 0 (·.line)) := by
  unfold Block.directive at h
  obtain ⟨⟨date, l⟩, hdate, h⟩ := Checked.bind_eq_ok.1 h
  have htransaction {flag : Char} {rest : Line} (hstarts : Starts l flag rest)
      {done : Draft → Placed Directive}
      (hdone : ∀ draft, (done draft).span.start = b.head.here.start ∧
        (done draft).value = ⟨date,
          pushed.complete draft.metadata (b.head.tokens.head?.elim 0 (·.line)),
          .transaction draft.transaction⟩)
      (h : (Draft.read pushed flag rest b.body >>= fun draft =>
        pure (done draft, ([] : List Line))).run.value? = some (.ok (d, leftover))) :
      d.span.start = b.head.here.start ∧
        ∃ l m, b.head.date.run.value? = some (.ok (d.value.date, l)) ∧
          ReadsAs pushed b l d.value.body m leftover ∧
          d.value.metadata = pushed.complete m (b.head.tokens.head?.elim 0 (·.line)) := by
    obtain ⟨draft, hread, h⟩ := Checked.bind_eq_ok.1 h
    obtain ⟨rfl, rfl⟩ := Prod.mk.inj (Checked.pure_eq_ok.1 h)
    obtain ⟨hstart, hvalue⟩ := hdone draft
    rw [hvalue]
    exact ⟨hstart, l, draft.metadata, hdate, .transaction hstarts hread, rfl⟩
  simp only at h
  split at h
  · exact absurd h Checked.throw_ne_ok
  · rename_i first rest htokens
    split at h
    · next hflag => exact htransaction (.flag htokens hflag) (fun _ => ⟨rfl, rfl⟩) h
    · split at h
      · exact htransaction (.string l) (fun _ => ⟨rfl, rfl⟩) h
      · split at h
        · obtain ⟨⟨body, rest⟩, hstatement, h⟩ := Checked.bind_eq_ok.1 h
          obtain ⟨_, -, h⟩ := Checked.bind_eq_ok.1 h
          obtain ⟨⟨m, stop, leftover'⟩, hread, h⟩ := Checked.bind_eq_ok.1 h
          obtain ⟨rfl, rfl⟩ := Prod.mk.inj (Checked.pure_eq_ok.1 h)
          exact ⟨rfl, l, m, hdate, .statement (Line.statement_ne_transaction hstatement) hread, rfl⟩
        · exact absurd h Checked.throw_ne_ok

/-- A transaction is read from the rest of the first line and from the lines below. -/
theorem draft_of_directive {b : Block} {pushed : Pushed} {d : Placed Directive}
    {leftover : List Line} (h : (b.directive pushed).run.value? = some (.ok (d, leftover)))
    {t : Transaction} (ht : d.value.body = .transaction t) :
    d.span.start = b.head.here.start ∧
      ∃ l flag rest draft, b.head.date.run.value? = some (.ok (d.value.date, l)) ∧
        Starts l flag rest ∧
        (Draft.read pushed flag rest b.body).run.value? = some (.ok draft) ∧
        draft.transaction = t := by
  obtain ⟨hstart, l, m, hdate, hreads, -⟩ := reads_of_directive h
  generalize hbody : d.value.body = body at hreads
  cases hreads with
  | transaction hstarts hread =>
    exact ⟨hstart, l, _, _, _, hdate, hstarts, hread,
      Directive.Body.transaction.inj (hbody.symm.trans ht)⟩
  | statement hother => exact absurd (hbody.symm.trans ht) (hother t)

end Block

namespace Journal

/-- Every transaction of a journal is read from a draft of one of the blocks of its text. -/
theorem draft_of_mem_directives {text : String} {j : Journal}
    (h : (ofText text).value? = some j) {d : Placed Directive} (hd : d ∈ j.directives)
    {t : Transaction} (ht : d.value.body = .transaction t) :
    ∃ b ∈ Block.ofText text, d.span.start = b.uncommented.head.here.start ∧
      ∃ pushed l flag rest draft, pushed.TagsFrom (Token.scan text) ∧
        b.uncommented.head.date.run.value? = some (.ok (d.value.date, l)) ∧
        Block.Starts l flag rest ∧
        (Draft.read pushed flag rest b.body).run.value? = some (.ok draft) ∧
        draft.transaction = t := by
  obtain ⟨o, items, ho, hitems, rfl⟩ := value?_ofTokens.1 h
  have hmem := mem_items_of_directive hd
  rw [List.mem_append] at hmem
  rcases hmem with hmem | hmem
  · obtain ⟨o', ho', hnone, -⟩ := Block.stray_eq (Block.ofLines (Line.ofTokens (Token.scan text))).1
    obtain rfl : o' = o := by simpa [ho'] using ho
    have hdirective : d ∈ directives ⟨o'.toList⟩ := List.mem_filterMap.2 ⟨_, hmem, rfl⟩
    rw [hnone] at hdirective
    cases hdirective
  · have hblocks : ∀ b ∈ Block.ofText text, b.head.tokens ⊆ Token.scan text :=
      fun b hb => Block.subset_scan hb List.mem_cons_self
    have hempty : ({} : Pushed).TagsFrom (Token.scan text) := by simp [Pushed.TagsFrom]
    obtain ⟨b, hb, pushed, leftover, hpushed, hread⟩ :=
      Block.exists_of_mem_items hblocks hempty hitems hmem
    obtain ⟨hstart, l, flag, rest, draft, hdraft⟩ := Block.draft_of_directive hread ht
    exact ⟨b, hb, hstart, pushed, l, flag, rest, draft, hpushed, hdraft⟩

end Journal

end DoubleEntry
