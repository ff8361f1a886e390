import DoubleEntry.Proofs.Journal.MetadataScopes

/-!
# The keys that users write

A key of metadata that is written begins with a small letter, and the key that marks an amount as
filled in does not. So no posting is marked before interpolation marks it.

* `Token.exists_isLower_of_mem_scan`: how the text of a key begins.
* `Line.ne_automaticKey_of_pair?`: metadata that is written is not about that mark.
* `not_isAutomatic_of_load`: no posting of a loaded ledger is marked.
-/

namespace DoubleEntry

/-! ## Tokens -/

namespace Token

variable {pos : Cursor} {cs rest : List Char} {c : Char} {t : Token} {n : Nat}

theorem isLower_of_lexeme (h : lexeme c rest = (.metaKey, n)) : c.isLower := by
  unfold lexeme at h
  split at h
  · split at h <;> cases h
  split at h
  · split at h
    · cases h
    · obtain ⟨hkind, -⟩ := Prod.mk.inj h
      simp only [capitalWordKind] at hkind
      repeat' split at hkind
      all_goals cases hkind
  split at h
  · assumption
  · split at h
    case h_1 =>
      split at h
      · obtain ⟨hkind, -⟩ := Prod.mk.inj h
        split at hkind <;> cases hkind
      · cases h
    case h_3 =>
      have hkind := stringRest_kind rest
      rw [h] at hkind
      obtain hkind | hkind := hkind <;> cases hkind
    case h_4 | h_5 => split at h <;> cases h
    -- The other signs are no keys.
    all_goals cases h

theorem exists_isLower_of_mem_scan {text : String} (ht : t ∈ scan text)
    (hkind : t.kind = .metaKey) : ∃ c rest, t.text.toList = c :: rest ∧ c.isLower := by
  obtain ⟨before, after, fresh, -, hfinds⟩ := exists_finds ht
  cases hfinds with
  | indent => cases hkind
  | lexeme hlexeme =>
    obtain rfl := hkind
    exact ⟨_, _, String.toList_ofList, isLower_of_lexeme hlexeme⟩

end Token

/-! ## Lines -/

theorem Line.ne_automaticKey_of_pair? {text : String} {l : Line} {e : String × MetaValue}
    (hl : l.tokens ⊆ Token.scan text) (h : l.pair? = some e) : e.1 ≠ Metadata.automaticKey := by
  obtain ⟨⟨key, rest⟩, hkey, h⟩ := Checked.bind_eq_ok.1 (Line.pair?_eq_some_iff.1 h)
  obtain ⟨⟨t, rest'⟩, htoken, hkey⟩ := Checked.bind_eq_ok.1 hkey
  obtain ⟨ts, htokens, hkind, -⟩ := Line.token_eq_ok htoken
  obtain ⟨rfl, rfl⟩ := Prod.mk.inj (Checked.pure_eq_ok.1 hkey)
  obtain ⟨value, -, h⟩ := Checked.bind_eq_ok.1 h
  obtain ⟨_, -, h⟩ := Checked.bind_eq_ok.1 h
  rw [← Checked.pure_eq_ok.1 h]
  obtain ⟨c, tail, htext, hlower⟩ :=
    Token.exists_isLower_of_mem_scan (hl (htokens ▸ List.mem_cons_self)) hkind
  intro heq
  have hchars : (c :: tail).dropLast = Metadata.automaticKey.toList := by
    rw [← heq, Line.keyName, htext, String.toList_ofList]
  cases tail with
  | nil => cases hchars
  | cons d tail =>
    obtain ⟨rfl, -⟩ := List.cons.inj hchars
    exact absurd hlower (by decide)

namespace PostingLines

/-- Lines are those in front of the first posting, then those of the postings. -/
theorem eq_append_ofLines (lines : List Line) :
    lines = (ofLines lines).1 ++ (ofLines lines).2.flatMap fun w => w.head :: w.below := by
  induction lines with
  | nil => rfl
  | cons l lines ih =>
    rw [ofLines]
    simp only
    split
    · rw [List.nil_append, List.flatMap_cons, List.cons_append, ← ih]
    · rw [List.cons_append, ← ih]

/-- What stands below a posting is not about the mark. -/
theorem get?_metadata_automaticKey {text : String} {b : Block} (hb : b ∈ Block.ofText text)
    {w : PostingLines} (hw : w ∈ b.postingLines) :
    w.metadata.get? Metadata.automaticKey = none := by
  have hnone : w.entries.filter (·.1 = Metadata.automaticKey) = [] := by
    refine List.filter_eq_nil_iff.2 fun e he => ?_
    obtain ⟨l, hl, hentry⟩ := List.mem_filterMap.1 he
    have hbody : l ∈ b.body := by
      rw [eq_append_ofLines b.body]
      exact List.mem_append_right _ (List.mem_flatMap.2 ⟨w, hw, List.mem_cons_of_mem _ hl⟩)
    have hpair : l.pair? = some e := by
      unfold Line.entryBelow? at hentry
      split at hentry
      · exact hentry
      · cases hentry
    have hne := Line.ne_automaticKey_of_pair?
      (Block.subset_scan hb (List.mem_cons_of_mem _ hbody)) hpair
    simpa using hne
  have hline : Metadata.automaticKey ≠ Metadata.lineKey := by decide
  rw [metadata, Metadata.get?_insertAll, hnone, Metadata.get?_setLine_eq, if_neg hline]
  rfl

end PostingLines

/-! ## Postings -/

theorem Directive.postings_inFile (d : Directive) (path : String) :
    (d.inFile path).postings =
      d.postings.map fun p => { p with metadata := p.metadata.setFile path } := by
  obtain ⟨date, metadata, body⟩ := d
  cases body <;> rfl

/-- A posting that was read is not marked as filled in, whatever metadata users give it. -/
theorem not_isAutomatic_of_load {files : Files} {root : String} {loaded : Loaded}
    (h : (load files root).run.value? = some (.ok loaded)) {d : Directive}
    (hd : d ∈ loaded.directives) {p : Posting} (hp : p ∈ d.postings) : ¬p.isAutomatic := by
  obtain ⟨source, -, j, hj, written, hwritten, rfl⟩ := exists_written h hd
  rw [Directive.postings_inFile] at hp
  obtain ⟨q, hq, rfl⟩ := List.mem_map.1 hp
  have hmark : q.metadata.get? Metadata.automaticKey = none := by
    cases hbody : written.value.body with
    | transaction t =>
      rw [Directive.postings_of_transaction hbody] at hq
      obtain ⟨b, hb, -, hlines⟩ := Journal.relatesPostings hj hwritten hbody
        (R := fun _ p => p.metadata.get? Metadata.automaticKey = none) fun b hb w hw p hp => by
          rw [hp]
          exact PostingLines.get?_metadata_automaticKey hb hw
      obtain ⟨hlength, hmarks⟩ := List.forall₂_iff_get.1 hlines
      obtain ⟨i, hi, rfl⟩ := List.mem_iff_getElem.1 hq
      exact hmarks i (hlength ▸ hi) hi
    | _ =>
      rw [Directive.postings_eq_nil (by simp [hbody])] at hq
      cases hq
  have hfile : Metadata.automaticKey ≠ Metadata.fileKey := by decide
  simp [Posting.isAutomatic, Metadata.isAutomatic, Metadata.setFile, Metadata.get?_insert, hfile,
    hmark]

end DoubleEntry
