import DoubleEntry.Proofs.Journal.TokenPlaces
import Mathlib.Data.Bool.AllAny

/-!
# Words that stay words

Where a word ends depends on what follows it. Here are the words of which accounts, currencies,
tags, links and flags are made, and what may follow a word for it to be read as a single token.

* `Token.Follow`: what follows begins with one of some characters, if there is anything.
* `Token.ReadAs`: the characters are read as one token in front of some more.
* `Token.IsWord`: the texts of tokens of a kind. `Token.isWord_of_lexeme`: all tokens have them.
* `Token.readAs_account`, `Token.readAs_currency`, …: these texts, and those of strings, are read as
  one token again.
-/

namespace DoubleEntry.Token

variable {cs more rest name : List Char} {c : Char} {kind : Kind} {n : Nat} {p : Char → Bool}

/-- What follows begins with one of these characters, if there is anything. -/
def Follow (allowed more : List Char) : Prop := ∀ c ∈ more.head?, c ∈ allowed

/-- The characters are read as one token of the kind in front of some more. -/
def ReadAs (kind : Kind) (cs more : List Char) : Prop :=
  ∃ c tail, cs = c :: tail ∧ isBlank c = false ∧ lexeme c (tail ++ more) = (kind, tail.length)

/-- The characters that have the property end where what follows begins. -/
theorem takeWhile_append_of_head {α : Type} {p : α → Bool} {l more : List α}
    (hl : ∀ a ∈ l, p a) (hmore : ∀ a ∈ more.head?, p a = false) :
    (l ++ more).takeWhile p = l := by
  have hnone : more.takeWhile p = [] := by
    cases more with
    | nil => rfl
    | cons a more => rw [List.takeWhile_cons, hmore a rfl, if_neg Bool.false_ne_true]
  rw [List.takeWhile_append_of_pos hl, hnone, List.append_nil]

theorem countWhile_append {l : List Char} (hl : ∀ c ∈ l, p c)
    (hmore : ∀ c ∈ more.head?, p c = false) : countWhile p (l ++ more) = l.length := by
  rw [countWhile, takeWhile_append_of_head hl hmore]

theorem le_countWhile_append (hcs : ∀ c ∈ cs, p c) (more : List Char) :
    cs.length ≤ countWhile p (cs ++ more) := by
  rw [countWhile, List.takeWhile_append_of_pos hcs, List.length_append]
  exact Nat.le_add_right _ _

theorem Follow.mono {allowed allowed' : List Char} (h : Follow allowed more)
    (hsubset : allowed ⊆ allowed') : Follow allowed' more := fun c hc => hsubset (h c hc)

theorem follow_blank (more : List Char) {allowed : List Char} (h : ' ' ∈ allowed) :
    Follow allowed (' ' :: more) := by
  rintro c ⟨⟩
  exact h

/-- A property that none of the characters has which may follow. -/
theorem Follow.not {allowed : List Char} (h : Follow allowed more) (hp : allowed.any p = false) :
    ∀ c ∈ more.head?, p c = false := fun c hc =>
  Bool.eq_false_iff.2 (List.any_eq_false.1 hp c (h c hc))

theorem lexeme_of_isDecimalDigit (hdigit : Unicode.isDecimalDigit c) (cs : List Char) :
    lexeme c cs =
      match dateLength? (c :: cs) with
      | some n => (.date, n - 1)
      | none => (.number, (numberLength (c :: cs)).1 - 1) := by
  unfold lexeme
  exact if_pos hdigit

/-- A word with a capital letter is an account if it can be one. -/
theorem lexeme_of_isUpper (hdigit : Unicode.isDecimalDigit c = false) (hupper : c.isUpper)
    (cs : List Char) :
    lexeme c cs =
      match accountLength? (c :: cs) with
      | some n => (.account, n - 1)
      | none =>
        let n := countWhile inCapitalWord cs
        (capitalWordKind c (cs.take n), n) := by
  unfold lexeme
  rw [hdigit, if_neg Bool.false_ne_true]
  exact if_pos hupper

/-! ## Accounts -/

/-- The characters of an account name: a root and at least one further component. -/
def IsAccount (cs : List Char) : Prop :=
  ∃ root ∈ accountRoots, ∃ c rest,
    cs = root ++ ':' :: c :: rest ∧ startsComponent c ∧ accountRest rest = rest.length

theorem accountRest_take (cs : List Char) :
    accountRest (cs.take (accountRest cs)) = (cs.take (accountRest cs)).length := by
  induction cs using accountRest.induct with
  | case1 => rfl
  | case2 c rest h ih =>
    simp only [accountRest, if_pos h, List.take_succ_cons, List.length_cons, ih]
  | case3 c rest h => simp [accountRest, if_neg h]
  | case4 c rest hcolon h ih =>
    have hc := ne_colon_of_inComponent h
    rw [accountRest_cons hc, if_pos h, List.take_succ_cons, accountRest_cons hc, if_pos h, ih,
      List.length_cons]
  | case5 c rest hcolon h =>
    have hzero : accountRest (c :: rest) = 0 := by
      rw [accountRest, if_neg h]
      exact hcolon
    rw [hzero]
    rfl

/-- What follows an account name: no colon, and nothing that can stand inside a component. -/
theorem accountRest_append (h : accountRest cs = cs.length) (hmore : Follow [' ', '\n'] more) :
    accountRest (cs ++ more) = cs.length := by
  have hend : accountRest more = 0 := by
    cases more with
    | nil => rfl
    | cons c more =>
      have hc : c = ' ' ∨ c = '\n' := by simpa using hmore c rfl
      have hcolon : c ≠ ':' := by
        rintro rfl
        exact absurd hc (by decide)
      have hout : inComponent c = false := by
        obtain rfl | rfl := hc
        · rfl
        · rfl
      rw [accountRest_cons hcolon, hout, if_neg Bool.false_ne_true]
  induction cs using accountRest.induct with
  | case1 => exact hend
  | case2 c rest hc ih =>
    simp only [accountRest, if_pos hc, List.length_cons, Nat.add_right_cancel_iff] at h
    simp only [List.cons_append, accountRest, if_pos hc, List.length_cons, ih h]
  | case3 c rest hc => simp [accountRest, if_neg hc] at h
  | case4 c rest hcolon hc ih =>
    have hne := ne_colon_of_inComponent hc
    rw [accountRest_cons hne, if_pos hc, List.length_cons, Nat.add_right_cancel_iff] at h
    rw [List.cons_append, accountRest_cons hne, if_pos hc, ih h, List.length_cons]
  | case5 c rest hcolon hc =>
    have hzero : accountRest (c :: rest) = 0 := by
      rw [accountRest, if_neg hc]
      exact hcolon
    rw [hzero] at h
    cases h

/-- No root begins like another one. -/
theorem find?_accountRoots {root : List Char} (hroot : root ∈ accountRoots) (cs : List Char) :
    accountRoots.find? (·.isPrefixOf (root ++ cs)) = some root := by
  have hprefix : root.isPrefixOf (root ++ cs) :=
    List.isPrefixOf_iff_prefix.2 (List.prefix_append root cs)
  cases hfind : accountRoots.find? (·.isPrefixOf (root ++ cs)) with
  | none => exact absurd hprefix (List.find?_eq_none.1 hfind root hroot)
  | some other =>
    have hother : other.isPrefixOf (root ++ cs) := by simpa using List.find?_some hfind
    have hsame : ∀ a ∈ accountRoots, ∀ b ∈ accountRoots, a.isPrefixOf b → a = b := by decide
    obtain h | h := List.prefix_or_prefix_of_prefix (List.isPrefixOf_iff_prefix.1 hother)
      (List.prefix_append root cs)
    · rw [hsame other (List.mem_of_find?_eq_some hfind) root hroot (List.isPrefixOf_iff_prefix.2 h)]
    · rw [hsame root hroot other (List.mem_of_find?_eq_some hfind) (List.isPrefixOf_iff_prefix.2 h)]

theorem accountLength?_eq {root : List Char} (hroot : root ∈ accountRoots) (hc : startsComponent c)
    (cs : List Char) :
    accountLength? (root ++ ':' :: c :: cs) = some (root.length + 2 + accountRest cs) := by
  rw [accountLength?, find?_accountRoots hroot]
  simp only [Option.bind_eq_bind, Option.bind_some, List.drop_left, if_pos hc]

/-- What is read as an account is the name of one. -/
theorem isAccount_take (h : accountLength? cs = some n) : IsAccount (cs.take n) := by
  obtain ⟨root, hroot, h⟩ := Option.bind_eq_some_iff.1 h
  have hprefix : root.isPrefixOf cs := by simpa using List.find?_some hroot
  obtain ⟨after, rfl⟩ := List.isPrefixOf_iff_prefix.1 hprefix
  rw [List.drop_left] at h
  split at h
  · rename_i c rest _
    obtain ⟨hc, h⟩ := Option.ite_none_right_eq_some.1 h
    obtain rfl := Option.some.inj h
    refine ⟨root, List.mem_of_find?_eq_some hroot, c, rest.take (accountRest rest), ?_, hc,
      accountRest_take rest⟩
    rw [Nat.add_assoc, List.take_length_add_append, Nat.add_comm, List.take_succ_cons,
      List.take_succ_cons]
  · cases h

/-- The name of an account is read as one token. -/
theorem readAs_account (h : IsAccount cs) (hmore : Follow [' ', '\n'] more) :
    ReadAs .account cs more := by
  obtain ⟨root, hroot, c, rest, rfl, hc, hrest⟩ := h
  have hlength : accountLength? (root ++ ':' :: c :: (rest ++ more)) =
      some (root.length + 2 + rest.length) := by
    rw [accountLength?_eq hroot hc, accountRest_append hrest hmore]
  obtain ⟨first, root, rfl⟩ : ∃ first tail, root = first :: tail := by
    cases root with
    | nil => exact absurd hroot (by decide)
    | cons first root => exact ⟨first, root, rfl⟩
  have hfirst : isBlank first = false ∧ Unicode.isDecimalDigit first = false ∧ first.isUpper := by
    have hall : ∀ c ∈ accountRoots.filterMap (·.head?), isBlank c = false ∧
        Unicode.isDecimalDigit c = false ∧ c.isUpper :=
      List.all_iff_forall_prop.1 (by decide)
    exact hall first (List.mem_filterMap.2 ⟨_, hroot, rfl⟩)
  refine ⟨first, root ++ ':' :: c :: rest, rfl, hfirst.1, ?_⟩
  have hcs : first :: (root ++ ':' :: c :: rest ++ more) =
      (first :: root) ++ ':' :: c :: (rest ++ more) := by simp
  rw [lexeme_of_isUpper hfirst.2.1 hfirst.2.2, hcs, hlength]
  simp only [List.length_cons, List.length_append]
  congr 1
  omega

theorem isAccount_cash : IsAccount "Assets:Cash".toList :=
  ⟨"Assets".toList, by decide, 'C', "ash".toList, rfl, by decide +kernel, by decide +kernel⟩

theorem isAccount_shares : IsAccount "Assets:Shares".toList :=
  ⟨"Assets".toList, by decide, 'S', "hares".toList, rfl, by decide +kernel, by decide +kernel⟩

/-! ## Currencies -/

/-- The characters of a currency: capitals and digits, at least two. -/
def IsCurrency (cs : List Char) : Prop :=
  ∃ c rest, cs = c :: rest ∧ Unicode.isDecimalDigit c = false ∧ c.isUpper ∧ rest ≠ [] ∧
    (∀ d ∈ rest, isCapitalOrDigit d) ∧ capitalWordKind c rest = .currency

theorem isCurrency_usd : IsCurrency "USD".toList :=
  ⟨'U', "SD".toList, rfl, by decide, by decide, by decide, List.all_iff_forall_prop.1 (by decide),
    by decide⟩

theorem isCurrency_corp : IsCurrency "CORP".toList :=
  ⟨'C', "ORP".toList, rfl, by decide, by decide, by decide, List.all_iff_forall_prop.1 (by decide),
    by decide⟩

theorem of_capitalWordKind (h : capitalWordKind c cs = .currency) :
    cs ≠ [] ∧ ∀ d ∈ cs, isCapitalOrDigit d := by
  simp only [capitalWordKind] at h
  split at h
  · cases h
  split at h
  · cases h
  split at h
  · cases h
  split at h
  · split at h <;> cases h
  · next hne =>
    split at h
    · next hall => exact ⟨hne, List.all_eq_true.1 hall.1⟩
    · cases h

/-- The second letters of the roots. -/
def secondLetters : List Char := accountRoots.filterMap (·[1]?)

/-- A word whose second letter is that of no root is no account name. -/
theorem accountLength?_eq_none {d : Char} (hd : d ∉ secondLetters) (c : Char) (cs : List Char) :
    accountLength? (c :: d :: cs) = none := by
  have hfind : accountRoots.find? (·.isPrefixOf (c :: d :: cs)) = none := by
    refine List.find?_eq_none.2 fun root hroot hprefix => ?_
    obtain ⟨after, hafter⟩ := List.isPrefixOf_iff_prefix.1 hprefix
    have hlength : ∀ root ∈ accountRoots, 1 < root.length := by decide
    have happend : (root ++ after)[1]? = root[1]? :=
      List.getElem?_append_left (hlength root hroot)
    have hsecond : root[1]? = some d := by
      rw [← happend, hafter]
      rfl
    exact hd (List.mem_filterMap.2 ⟨root, hroot, hsecond⟩)
  rw [accountLength?, hfind]
  rfl

/-- The second letters of the roots are small. -/
theorem not_mem_secondLetters {d : Char} (hd : inCapitalWord d) : d ∉ secondLetters := by
  have hsmall : secondLetters.any inCapitalWord = false := by decide
  exact fun hmem => List.any_eq_false.1 hsmall d hmem hd

theorem inCapitalWord_of_isCapitalOrDigit (h : isCapitalOrDigit c) : inCapitalWord c := by
  simp [inCapitalWord, h]

theorem isBlank_of_isUpper (h : c.isUpper) : isBlank c = false := by
  rw [Bool.eq_false_iff]
  intro hblank
  obtain rfl | rfl : c = ' ' ∨ c = '\t' := by simpa [isBlank] using hblank
  · cases h
  · cases h

/-- A word of capitals, to its end. -/
theorem readAs_capitalWord (hdigit : Unicode.isDecimalDigit c = false) (hupper : c.isUpper)
    (hne : rest ≠ []) (hall : ∀ d ∈ rest, inCapitalWord d)
    (hmore : ∀ d ∈ more.head?, inCapitalWord d = false) :
    ReadAs (capitalWordKind c rest) (c :: rest) more := by
  have hcount : countWhile inCapitalWord (rest ++ more) = rest.length :=
    countWhile_append hall hmore
  have haccount : accountLength? (c :: (rest ++ more)) = none := by
    obtain ⟨d, rest, rfl⟩ := List.exists_cons_of_ne_nil hne
    exact accountLength?_eq_none (not_mem_secondLetters (hall d List.mem_cons_self)) c _
  refine ⟨c, rest, rfl, isBlank_of_isUpper hupper, ?_⟩
  rw [lexeme_of_isUpper hdigit hupper, haccount]
  simp only [hcount, List.take_left]

/-- A currency is read as one token. -/
theorem readAs_currency (h : IsCurrency cs) (hmore : Follow [' ', '\n', '\r', ',', '\x7d'] more) :
    ReadAs .currency cs more := by
  obtain ⟨c, rest, rfl, hdigit, hupper, hne, hall, hkind⟩ := h
  rw [← hkind]
  exact readAs_capitalWord hdigit hupper hne
    (fun d hd => inCapitalWord_of_isCapitalOrDigit (hall d hd)) (hmore.not (by decide))

/-! ## Tags, links and flags -/

/-- The characters of the name of a tag or link. -/
def IsName (cs : List Char) : Prop := cs ≠ [] ∧ ∀ c ∈ cs, inTag c

/-- The flags of transactions and postings. -/
def flagSigns : List Char := '*' :: '!' :: '?' :: '%' :: '&' :: flagLetters

/-- The kind of the token that writes a flag. -/
def flagKind (flag : Char) : Kind :=
  if flag = '*' then .star else if flag = '!' then .pending else .flag

/-- A flag with a blank behind it is read as one token. -/
theorem readAs_flag {flag : Char} (h : flag ∈ flagSigns) (more : List Char) :
    ReadAs (flagKind flag) [flag] (' ' :: more) := by
  refine ⟨flag, [], rfl, ?_, ?_⟩
  · have hblank : flagSigns.any isBlank = false := by decide
    exact Bool.eq_false_iff.2 (List.any_eq_false.1 hblank flag h)
  · obtain hsign | hletter : flag ∈ ['*', '!', '?', '%', '&'] ∨ flag ∈ flagLetters :=
      List.mem_append.1 h
    · have hdigit : ['*', '!', '?', '%', '&'].any Unicode.isDecimalDigit = false := rfl
      have hnone : Unicode.isDecimalDigit flag = false :=
        Bool.eq_false_iff.2 (List.any_eq_false.1 hdigit flag hsign)
      simp only [List.mem_cons, List.not_mem_nil, or_false] at hsign
      obtain rfl | rfl | rfl | rfl | rfl := hsign
      all_goals simp [lexeme, hnone, flagKind]
    · have hcapital : ∀ flag ∈ flagLetters, Unicode.isDecimalDigit flag = false ∧ flag.isUpper ∧
          flagKind flag = .flag ∧ capitalWordKind flag [] = .flag :=
        List.all_iff_forall_prop.1 (by decide)
      obtain ⟨hdigit, hupper, hkind, hword⟩ := hcapital flag hletter
      have haccount : accountLength? (flag :: ' ' :: more) = none :=
        accountLength?_eq_none (by decide) flag more
      have hcount : countWhile inCapitalWord (' ' :: more) = 0 :=
        countWhile_append (l := []) (by simp) (by simp [inCapitalWord, isCapitalOrDigit])
      rw [List.nil_append, lexeme_of_isUpper hdigit hupper, haccount, hkind]
      simp only [hcount, List.take_zero, hword, List.length_nil]

theorem countWhile_name (h : IsName name) (hmore : Follow [' ', '\n'] more) :
    ∃ n, countWhile inTag (name ++ more) = n + 1 ∧ name.length = n + 1 := by
  obtain ⟨c, rest, rfl⟩ := List.exists_cons_of_ne_nil h.1
  exact ⟨rest.length, countWhile_append h.2 (hmore.not (by decide)), rfl⟩

/-- The signs with which names begin, and what they make of them. -/
def nameSigns : List (Char × Kind) := [('#', .tag), ('^', .link)]

/-- A tag or a link is read up to where its name ends. -/
theorem readAs_name {sign : Char} {kind : Kind} (hsign : (sign, kind) ∈ nameSigns)
    (h : IsName name) (hmore : Follow [' ', '\n'] more) : ReadAs kind (sign :: name) more := by
  obtain ⟨n, hcount, hlength⟩ := countWhile_name h hmore
  simp only [nameSigns, List.mem_cons, List.not_mem_nil, or_false, Prod.mk.injEq] at hsign
  have hdigit : Unicode.isDecimalDigit '#' = false ∧ Unicode.isDecimalDigit '^' = false :=
    ⟨rfl, rfl⟩
  refine ⟨sign, name, rfl, ?_, ?_⟩
  · obtain ⟨rfl, -⟩ | ⟨rfl, -⟩ := hsign
    all_goals rfl
  · obtain ⟨rfl, rfl⟩ | ⟨rfl, rfl⟩ := hsign
    all_goals simp [lexeme, hdigit, hcount, hlength]

/-! ## Strings -/

/-- A string needs no backslashes inside. -/
def Plain (s : List Char) : Prop := ∀ c ∈ s, c ≠ '"' ∧ c ≠ '\\'

theorem stringRest_plain {s : List Char} (h : Plain s) (more : List Char) :
    stringRest (s ++ '"' :: more) = (.string, s.length + 1) := by
  induction s with
  | nil => rfl
  | cons c s ih =>
    obtain ⟨⟨hquote, hbackslash⟩, hs⟩ := List.forall_mem_cons.1 h
    rw [List.cons_append, stringRest_cons hquote hbackslash, ih hs]
    rfl

/-- A string without quotes and backslashes is read as one token. -/
theorem readAs_string {s : List Char} (h : Plain s) (more : List Char) :
    ReadAs .string ('"' :: s ++ ['"']) more := by
  refine ⟨'"', s ++ ['"'], rfl, rfl, ?_⟩
  rw [List.append_assoc, List.singleton_append, lexeme_quote, stringRest_plain h,
    List.length_append]
  rfl

/-! ## Tokens of a text -/

/-- The texts of the tokens of a kind, as far as they matter. -/
def IsWord : Kind → List Char → Prop
  | .account, cs => IsAccount cs
  | .currency, cs => IsCurrency cs
  | .tag, cs | .link, cs => IsName cs.tail
  | .flag, cs => ∃ flag ∈ flagSigns, cs = [flag]
  | _, _ => True

theorem isWord_capitalWordKind (hdigit : Unicode.isDecimalDigit c = false) (hupper : c.isUpper)
    (rest : List Char) : IsWord (capitalWordKind c rest) (c :: rest) := by
  generalize hword : capitalWordKind c rest = kind
  have hkind := hword
  simp only [capitalWordKind] at hkind
  split at hkind
  · exact hkind ▸ trivial
  split at hkind
  · exact hkind ▸ trivial
  split at hkind
  · exact hkind ▸ trivial
  split at hkind
  · next hnil =>
    split at hkind
    · next hletter =>
      have hsign : c ∈ flagSigns := List.mem_append_right ['*', '!', '?', '%', '&'] hletter
      exact hkind ▸ ⟨c, hsign, by rw [hnil]⟩
    · exact hkind ▸ trivial
  split at hkind
  · obtain rfl := hkind
    obtain ⟨hne, hall⟩ := of_capitalWordKind hword
    exact ⟨c, rest, rfl, hdigit, hupper, hne, hall, hword⟩
  · exact hkind ▸ trivial

theorem isName_takeWhile (h : countWhile inTag cs ≠ 0) :
    IsName (cs.take (countWhile inTag cs)) := by
  have htake : cs.take (countWhile inTag cs) = cs.takeWhile inTag :=
    (List.prefix_iff_eq_take.1 (List.takeWhile_prefix inTag)).symm
  rw [htake]
  exact ⟨fun hnil => h (by rw [countWhile, hnil]; rfl), fun c hc => List.mem_takeWhile_imp hc⟩

/-- Whatever the lexer reads, it has a text of its kind. -/
theorem isWord_of_lexeme (h : lexeme c cs = (kind, n)) : IsWord kind (c :: cs.take n) := by
  unfold lexeme at h
  split at h
  · split at h <;> cases h <;> exact trivial
  split at h
  · next hdigit hupper =>
    split at h
    · next k hlength =>
      cases h
      have haccount := isAccount_take hlength
      cases k with
      | zero =>
        obtain ⟨root, hroot, c, rest, hnil, -⟩ := haccount
        rw [List.take_zero] at hnil
        exact absurd hnil (by simp)
      | succ k => exact haccount
    · cases h
      exact isWord_capitalWordKind (by simpa using hdigit) hupper _
  split at h
  · simp only at h
    split at h
    · cases h
      exact trivial
    · cases h
      unfold smallWordKind
      split <;> exact trivial
  · split at h
    case h_1 =>
      split at h
      · cases h
        split <;> exact trivial
      · cases h
        exact trivial
    case h_3 =>
      have hkind := stringRest_kind cs
      rw [h] at hkind
      obtain rfl | rfl := hkind
      · exact trivial
      · exact trivial
    case h_4 | h_5 =>
      split at h
      · cases h
        exact trivial
      · next hne =>
        cases h
        exact isName_takeWhile (hne ·)
    -- The other signs; three of them are flags.
    all_goals
      cases h
      first
      | exact trivial
      | exact ⟨_, by decide, rfl⟩

/-- Every token of a text has a text of its kind. -/
theorem isWord_of_mem_scanFrom {pos : Cursor} {t : Token} (ht : t ∈ scanFrom pos cs) :
    IsWord t.kind t.text.toList := by
  obtain ⟨before, after, fresh, -, hfinds⟩ := exists_finds ht
  cases hfinds with
  | indent => exact trivial
  | lexeme hlexeme =>
    simp only [Cursor.token, String.toList_ofList]
    exact isWord_of_lexeme hlexeme

end DoubleEntry.Token
