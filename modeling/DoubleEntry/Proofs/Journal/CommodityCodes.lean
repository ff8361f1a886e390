import DoubleEntry.Proofs.Journal.Statements
import DoubleEntry.Proofs.Sample
import Mathlib.Tactic.TFAE

/-!
# Commodity codes

A code is a capital, then capitals, digits and the signs `'`, `.`, `_` and `-`, with a capital or a
digit at the end. Not every code is read as a currency: only the plain ones are, which have no signs
and begin with one of a few capitals. All others are text that is no token.

* `IsCode`, `IsPlainCode`: the codes, and those that are read.
* `Token.readAs_code`: a code is one token, whatever it is.
* `plainCode_tfae`: the plain codes are those that can be declared, and those that an account can be
  opened with.
-/

namespace DoubleEntry

open Token

/-- A capital, then capitals, digits and signs, and a capital or digit at the end. -/
def IsCode (cs : List Char) : Prop :=
  ∃ c middle last, cs = c :: (middle ++ [last]) ∧ c.isUpper ∧ (∀ d ∈ middle, inCapitalWord d) ∧
    isCapitalOrDigit last

/-- Only capitals and digits after the first capital, which is one that currencies begin with unless
the code begins like a literal. -/
def IsPlainCode (cs : List Char) : Prop :=
  ∃ c rest, cs = c :: rest ∧ (∀ d ∈ rest, isCapitalOrDigit d) ∧
    (c ∈ currencyInitials ∨ "FALSE".toList <+: cs ∨ "NULL".toList <+: cs)

/-- The codes that are words of the language. -/
def literalCodes : List String := ["TRUE", "FALSE", "NULL"]

namespace Token

variable {cs more rest : List Char} {c : Char}

theorem isDecimalDigit_of_isUpper (h : c.isUpper) : Unicode.isDecimalDigit c = false := by
  have hbounds : 65 ≤ c.val ∧ c.val ≤ 90 := of_decide_eq_true h
  have hge : 65 ≤ c.toNat := UInt32.le_iff_toNat_le.1 hbounds.1
  have hle : c.toNat ≤ 90 := UInt32.le_iff_toNat_le.1 hbounds.2
  have hdigit : c.isDigit = false := by
    rw [Bool.eq_false_iff]
    intro hdigit
    have hnine : c.toNat ≤ 57 := (Char.isDigit_iff_toNat.1 hdigit).2
    omega
  rwa [Unicode.isDecimalDigit, if_pos (by omega)]

/-- What a word of at least two capitals, digits and signs is, apart from literals. -/
theorem capitalWordKind_of_ne (hliteral : String.ofList (c :: rest) ∉ literalCodes)
    (hne : rest ≠ []) :
    capitalWordKind c rest = .currency ∧ IsPlainCode (c :: rest) ∨
      capitalWordKind c rest = .error ∧ ¬IsPlainCode (c :: rest) := by
  have hword (literal : String) (hmem : literal ∈ literalCodes) : c :: rest ≠ literal.toList := by
    rintro heq
    rw [heq, String.ofList_toList] at hliteral
    exact hliteral hmem
  have hplain : IsPlainCode (c :: rest) ↔ rest.all isCapitalOrDigit ∧ (c ∈ currencyInitials ∨
      "FALSE".toList.isPrefixOf (c :: rest) ∨ "NULL".toList.isPrefixOf (c :: rest)) := by
    simp only [IsPlainCode, List.isPrefixOf_iff_prefix, List.all_eq_true]
    constructor
    · rintro ⟨c', rest', heq, hrest, hfirst⟩
      obtain ⟨rfl, rfl⟩ := List.cons.inj heq
      exact ⟨hrest, hfirst⟩
    · rintro ⟨hrest, hfirst⟩
      exact ⟨c, rest, rfl, hrest, hfirst⟩
  simp only [capitalWordKind, if_neg (hword "TRUE" (by decide)),
    if_neg (hword "FALSE" (by decide)), if_neg (hword "NULL" (by decide)), if_neg hne, hplain]
  split
  · next h => exact .inl ⟨rfl, h⟩
  · next h => exact .inr ⟨rfl, h⟩

/-- A code is one token to its end: a currency if it is plain, and no token of the language
otherwise. -/
theorem readAs_code {code : String} (hcode : IsCode code.toList) (hliteral : code ∉ literalCodes) :
    ∃ kind, (kind = .currency ∧ IsPlainCode code.toList ∨
        kind = .error ∧ ¬IsPlainCode code.toList) ∧
      ∀ more, Follow [' ', '\t', '\n', '\r'] more → ReadAs kind code.toList more := by
  obtain ⟨c, middle, last, hcs, hupper, hmiddle, hlast⟩ := hcode
  have hall : ∀ d ∈ middle ++ [last], inCapitalWord d :=
    List.forall_mem_append.2 ⟨hmiddle,
      List.forall_mem_singleton.2 (inCapitalWord_of_isCapitalOrDigit hlast)⟩
  have hne : middle ++ [last] ≠ [] := List.append_ne_nil_of_right_ne_nil _ (List.cons_ne_nil _ _)
  rw [← String.ofList_toList (s := code), hcs] at hliteral
  rw [hcs]
  refine ⟨_, capitalWordKind_of_ne hliteral hne, fun more hmore => ?_⟩
  exact readAs_capitalWord (isDecimalDigit_of_isUpper hupper) hupper hne hall
    (hmore.not (by decide))

end Token

/-! ## Codes in directives -/

namespace Line

variable {l : Line} {code : String} {kind : Token.Kind} {place : Span}

/-- A code is declared if it is a currency. -/
theorem commodity_of_words (h : l.words = [(kind, code.toList)]) :
    (l.wholeStatement .commodity place).ok? =
      if kind = .currency then some (.commodity code) else none := by
  split
  · next hkind =>
    obtain ⟨l', hread, hl'⟩ := currency_yields (hkind ▸ h)
    simp only [wholeStatement, statement, hread, pure_bind, finish_of_words hl', Reading.ok?_pure]
  · next hkind =>
    obtain ⟨t, ts, htokens, hword, -, -⟩ := of_words_cons h
    simp [wholeStatement, statement, currency, token, htokens, hword, hkind]

/-- An account is opened with a code if that is a currency. -/
theorem opening_of_words {account : Account}
    (hkind : kind = .currency ∨ kind = .error)
    (h : l.words = [(.account, account.toList), (kind, code.toList)]) :
    (l.wholeStatement .opening place).ok? =
      if kind = .currency then some (.opening account [code] none) else none := by
  obtain ⟨l₁, haccount, hl₁⟩ := account_yields h
  have hnext : l₁.nextKind? = some kind := by rw [nextKind?_of_words, hl₁]; rfl
  obtain rfl | rfl := hkind
  · obtain ⟨l₂, hcurrency, hl₂⟩ := currency_yields hl₁
    have hnil := tokens_eq_nil hl₂
    have hmore : l₂.moreCurrencies = pure ([], l₂) := by
      rw [moreCurrencies]
      split
      · next heq => rw [hnil] at heq; cases heq
      · rfl
    have hstring : l₂.string? = pure (none, l₂) := by
      rw [string?, nextKind?_of_words, hl₂]
      rfl
    simp only [wholeStatement, statement, haccount, pure_bind, currencies, hnext, if_true,
      hcurrency, hmore, hstring, finish_of_words hl₂, Reading.ok?_pure]
  · have hstring : l₁.string? = pure (none, l₁) := by
      rw [string?, hnext]
      rfl
    obtain ⟨t, ts, htokens, hword, -, -⟩ := of_words_cons hl₁
    simp [wholeStatement, statement, haccount, currencies, hnext, hstring, finish, htokens, hword]

end Line

section

variable {code written ending : String} {kind : Token.Kind} {day : Date} {account : Account}

/-- A code is declared on a day if it is a currency. -/
theorem Directive.ofText?_commodity (hday : day.WrittenAs written)
    (hkind : kind = .currency ∨ kind = .error)
    (hcode : Scans false (code.toList ++ ending.toList)
      ((kind, code.toList) :: endWords ending)) :
    Directive.ofText? (written ++ " commodity " ++ code ++ ending) =
      if kind = .currency then some ⟨day, ({} : Metadata).setLine 1, .commodity code⟩
      else none := by
  have hname : ("commodity", Keyword.commodity) ∈ Keyword.all := by decide
  have hword : kind ≠ .newline ∧ kind ≠ .indent := by obtain rfl | rfl := hkind <;> decide
  obtain ⟨l, place, hl, htext⟩ := Directive.ofText?_statement hday hname (by decide)
    (.cons hword (List.forall_mem_nil _)) hcode
  rw [Line.commodity_of_words hl] at htext
  simp only [String.append_assoc] at htext ⊢
  refine htext.trans ?_
  split <;> rfl

/-- An account is opened with a code on a day if that is a currency. -/
theorem Directive.ofText?_opening (hday : day.WrittenAs written)
    (haccount : IsAccount account.toList) (hkind : kind = .currency ∨ kind = .error)
    (hcode : Scans false (code.toList ++ ending.toList)
      ((kind, code.toList) :: endWords ending)) :
    Directive.ofText? (written ++ " open " ++ account ++ " " ++ code ++ ending) =
      if kind = .currency then some ⟨day, ({} : Metadata).setLine 1, .opening account [code] none⟩
      else none := by
  have hname : ("open", Keyword.opening) ∈ Keyword.all := by decide
  have hword : kind ≠ .newline ∧ kind ≠ .indent := by obtain rfl | rfl := hkind <;> decide
  have hfollow : Follow [' ', '\n'] (' ' :: (code.toList ++ ending.toList)) :=
    follow_blank _ (by decide)
  have hrest : Scans false ((account ++ " " ++ code).toList ++ ending.toList)
      ([(.account, account.toList), (kind, code.toList)] ++ endWords ending) := by
    simpa using (readAs_account haccount hfollow).scans (b := false) hcode.blank
  obtain ⟨l, place, hl, htext⟩ := Directive.ofText?_statement hday hname (by decide)
    (.cons (by decide) (.cons hword (List.forall_mem_nil _))) hrest
  rw [Line.opening_of_words hkind hl] at htext
  simp only [String.append_assoc] at htext ⊢
  refine htext.trans ?_
  split <;> rfl

end

/-- Of the codes, the plain ones are those that are read as a currency in front of a blank or the
end of a line, those that can be declared, and those that an account can be opened with. -/
theorem plainCode_tfae {code : String} (hcode : IsCode code.toList) (hliteral : code ∉ literalCodes)
    {day : Date} {written : String} (hday : day.WrittenAs written) {account : Account}
    (haccount : IsAccount account.toList) {ending : String} (hending : ending ∈ lineEnds) :
    List.TFAE [
      IsPlainCode code.toList,
      ∀ more, Follow [' ', '\t', '\n', '\r'] more → ∀ pos : Cursor,
        scanFrom pos (code.toList ++ more) =
          pos.token .currency code.toList :: scanFrom (pos.advance code.toList false) more,
      Directive.ofText? (written ++ " commodity " ++ code ++ ending) =
        some ⟨day, ({} : Metadata).setLine 1, .commodity code⟩,
      Directive.ofText? (written ++ " open " ++ account ++ " " ++ code ++ ending) =
        some ⟨day, ({} : Metadata).setLine 1, .opening account [code] none⟩] := by
  obtain ⟨kind, hplain, hread⟩ := readAs_code hcode hliteral
  have hcurrency : IsPlainCode code.toList ↔ kind = .currency := by
    obtain ⟨rfl, hplain⟩ | ⟨rfl, hplain⟩ := hplain <;> simp [hplain]
  have hkind : kind = .currency ∨ kind = .error := hplain.imp And.left And.left
  have hscans : Scans false (code.toList ++ ending.toList)
      ((kind, code.toList) :: endWords ending) := by
    have hline : decide (kind = .newline) = false := by obtain rfl | rfl := hkind <;> rfl
    refine (hread _ ((atLineEnd_of_mem hending).follow.mono (by simp))).scans ?_
    rw [hline]
    exact scans_lineEnd hending
  rw [hcurrency]
  tfae_have 1 → 2 := by
    rintro rfl more hmore pos
    exact (hread more hmore).scan_eq pos
  tfae_have 2 → 1 := by
    intro h
    have hempty : Follow [' ', '\t', '\n', '\r'] [] := by rintro c ⟨⟩
    have hboth := ((hread [] hempty).scan_eq {}).symm.trans (h [] hempty {})
    exact congrArg Token.kind (List.cons.inj hboth).1
  tfae_have 1 ↔ 3 := by
    rw [Directive.ofText?_commodity hday hkind hscans]
    by_cases h : kind = .currency <;> simp [h]
  tfae_have 1 ↔ 4 := by
    rw [Directive.ofText?_opening hday haccount hkind hscans]
    by_cases h : kind = .currency <;> simp [h]
  tfae_finish

theorem isCode_of_plain {c : Char} {rest : List Char} (hc : c.isUpper) (hne : rest ≠ [])
    (hrest : ∀ d ∈ rest, isCapitalOrDigit d) : IsCode (c :: rest) := by
  obtain ⟨middle, last, rfl⟩ := (List.eq_nil_or_concat' rest).resolve_left hne
  obtain ⟨hmiddle, hlast⟩ := List.forall_mem_append.1 hrest
  exact ⟨c, middle, last, rfl, hc, fun d hd => inCapitalWord_of_isCapitalOrDigit (hmiddle d hd),
    hlast last List.mem_cons_self⟩

theorem plainCode_tfae_aapl :
    IsCode "AAPL".toList ∧ List.TFAE [
      IsPlainCode "AAPL".toList,
      ∀ more, Follow [' ', '\t', '\n', '\r'] more → ∀ pos : Cursor,
        scanFrom pos ("AAPL".toList ++ more) =
          pos.token .currency "AAPL".toList :: scanFrom (pos.advance "AAPL".toList false) more,
      Directive.ofText? "2024-01-05 commodity AAPL\n" =
        some ⟨.afterNewYear 4, ({} : Metadata).setLine 1, .commodity "AAPL"⟩,
      Directive.ofText? "2024-01-05 open Assets:Shares AAPL\n" =
        some ⟨.afterNewYear 4, ({} : Metadata).setLine 1,
          .opening "Assets:Shares" ["AAPL"] none⟩] := by
  have hcode : IsCode "AAPL".toList :=
    isCode_of_plain (by decide) (by decide) (List.all_iff_forall_prop.1 (by decide))
  have haccount : IsAccount "Assets:Shares".toList :=
    ⟨"Assets".toList, by decide, 'S', "hares".toList, rfl, by decide +kernel, by decide +kernel⟩
  have hending : "\n" ∈ lineEnds := by decide
  have hall :=
    plainCode_tfae hcode (by decide) (Date.afterNewYear 4).writtenAs_text haccount hending
  have hcommodity : (Date.afterNewYear 4).text ++ " commodity " ++ "AAPL" ++ "\n" =
      "2024-01-05 commodity AAPL\n" := by decide +kernel
  have hopening : (Date.afterNewYear 4).text ++ " open " ++ "Assets:Shares" ++ " " ++ "AAPL" ++
      "\n" = "2024-01-05 open Assets:Shares AAPL\n" := by decide +kernel
  rw [hcommodity, hopening] at hall
  exact ⟨hcode, hall⟩

/-- A code of capitals that is no token, as no currency begins with its first letter. -/
theorem isCode_vachr_refused :
    IsCode "VACHR".toList ∧ "VACHR" ∉ literalCodes ∧
      scan "VACHR" = [({} : Cursor).token .error "VACHR".toList] ∧
      Directive.ofText? "2024-01-01 commodity VACHR\n" = none ∧
      Directive.ofText? "2024-01-01 open Assets:Cash VACHR\n" = none := by
  have hcode : IsCode "VACHR".toList :=
    isCode_of_plain (by decide) (by decide) (List.all_iff_forall_prop.1 (by decide))
  exact ⟨hcode, by decide, by decide +kernel, by decide +kernel, by decide +kernel⟩

end DoubleEntry
