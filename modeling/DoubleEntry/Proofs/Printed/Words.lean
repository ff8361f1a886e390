import DoubleEntry.Proofs.Journal.Scan
import DoubleEntry.Proofs.Printed.Numerals
import DoubleEntry.Proofs.Printed.Written

/-!
# The words of a transaction

The text of a transaction is scanned as the words that were put into it.

* `Token.Scans`: which words a text is scanned as, wherever it stands.
* `Transaction.words`: the words of a transaction, with those of its postings.
* `Transaction.Printable`: the texts in a transaction need no backslashes, and its costs say no more
  than is printed.
* `Transaction.scans_text`: the text of a transaction is scanned as its words.
-/

namespace DoubleEntry

/-- A token without its place: what it is, and its characters. -/
abbrev Word := Token.Kind × List Char

/-- The kind and the characters of a token. -/
def Token.word (t : Token) : Word := (t.kind, t.text.toList)

/-- The words of the tokens still to be read. -/
def Line.words (l : Line) : List Word := l.tokens.map Token.word

namespace Token

variable {cs more : List Char} {kind : Kind} {words : List Word}

/-- The characters are scanned as the words, at the start of a line (`fresh`) or inside. -/
def Scans (fresh : Bool) (cs : List Char) (words : List Word) : Prop :=
  ∀ pos : Cursor, pos.fresh = fresh → (scanFrom pos cs).map word = words

theorem scans_nil (fresh : Bool) : Scans fresh [] [] := fun pos _ => by
  rw [scanFrom_eq_nil rfl]
  rfl

theorem word_token (pos : Cursor) (kind : Kind) (cs : List Char) :
    (pos.token kind cs).word = (kind, cs) := by
  rw [word, Cursor.token, String.toList_ofList]

/-- The token that the characters are read as, and the tokens of what follows. -/
theorem ReadAs.scan_eq (h : ReadAs kind cs more) (pos : Cursor) :
    scanFrom pos (cs ++ more) =
      pos.token kind cs :: scanFrom (pos.advance cs (kind = .newline)) more := by
  obtain ⟨c, tail, rfl, hblank, hlexeme⟩ := h
  have hdrop : (c :: tail ++ more).dropWhile isBlank = c :: (tail ++ more) := by
    rw [List.cons_append, List.dropWhile_cons_of_neg (by simp [hblank])]
  have htake : (c :: tail ++ more).takeWhile isBlank = [] := by
    rw [List.cons_append, List.takeWhile_cons_of_neg (by simp [hblank])]
  have hlead : lead pos [] kind = [] := by simp [lead]
  rw [scanFrom_eq hdrop hlexeme, htake]
  simp only [hlead, List.nil_append, List.take_left, List.drop_left]
  rfl

/-- A text that is read as one token. -/
theorem ReadAs.exists_scan {text : String} (h : ReadAs kind text.toList []) :
    ∃ t, scan text = [t] ∧ t.kind = kind ∧ t.text = text := by
  have hnil (pos : Cursor) : scanFrom pos [] = [] := scanFrom_eq_nil rfl
  have hscan := h.scan_eq {}
  rw [List.append_nil, hnil] at hscan
  exact ⟨_, hscan, rfl, String.ofList_toList⟩

/-- One word in front of others. -/
theorem ReadAs.scans {b : Bool} (h : ReadAs kind cs more)
    (hmore : Scans (kind = .newline) more words) :
    Scans b (cs ++ more) ((kind, cs) :: words) := by
  intro pos _
  rw [h.scan_eq, List.map_cons, word_token, hmore _ rfl]

/-- A blank inside a line separates words, and is none itself. -/
theorem Scans.blank (h : Scans false cs words) : Scans false (' ' :: cs) words := by
  intro pos hpos
  rw [← h (pos.advance [' '] false) rfl]
  have hdrop : (' ' :: cs).dropWhile isBlank = cs.dropWhile isBlank := rfl
  have htake : (' ' :: cs).takeWhile isBlank = ' ' :: cs.takeWhile isBlank := rfl
  cases hcs : cs.dropWhile isBlank with
  | nil => rw [scanFrom_eq_nil (hdrop.trans hcs), scanFrom_eq_nil hcs]
  | cons c rest =>
    have hlead (pos : Cursor) (hpos : pos.fresh = false) (blanks : List Char) (kind : Kind) :
        lead pos blanks kind = [] := by simp [lead, hpos]
    have hnext (kind : Kind) (blanks piece : List Char) :
        pos.next (' ' :: blanks) piece kind =
          (pos.advance [' '] false).next blanks piece kind := by
      simp only [Cursor.next, advance_advance, List.append_assoc]
      rfl
    obtain ⟨kind, n, hlexeme⟩ : ∃ kind n, lexeme c rest = (kind, n) := ⟨_, _, rfl⟩
    rw [scanFrom_eq (hdrop.trans hcs) hlexeme, scanFrom_eq hcs hlexeme, htake]
    simp only [hlead pos hpos, hlead (pos.advance [' '] false) rfl, hnext, List.nil_append,
      List.map_cons, word_token]

/-- Blanks at the start of a line are a word of their own. -/
theorem ReadAs.scans_indent (h : ReadAs kind cs more) (hkind : kind ≠ .newline)
    (hmore : Scans false more words) :
    Scans true (' ' :: ' ' :: (cs ++ more)) ((.indent, [' ', ' ']) :: (kind, cs) :: words) := by
  obtain ⟨c, tail, rfl, hblank, hlexeme⟩ := h
  intro pos hpos
  have hdrop : (' ' :: ' ' :: (c :: tail ++ more)).dropWhile isBlank = c :: (tail ++ more) := by
    change (c :: (tail ++ more)).dropWhile isBlank = _
    rw [List.dropWhile_cons_of_neg (by simp [hblank])]
  have htake : (' ' :: ' ' :: (c :: tail ++ more)).takeWhile isBlank = [' ', ' '] := by
    change ' ' :: ' ' :: (c :: (tail ++ more)).takeWhile isBlank = _
    rw [List.takeWhile_cons_of_neg (by simp [hblank])]
  have hlead : lead pos [' ', ' '] kind = [pos.token .indent [' ', ' ']] :=
    if_pos ⟨hpos, List.cons_ne_nil _ _, hkind⟩
  rw [scanFrom_eq hdrop hlexeme, htake]
  simp only [hlead, List.cons_append, List.nil_append, List.map_cons, word_token, List.take_left,
    List.drop_left]
  rw [hmore _ (decide_eq_false hkind)]

/-! ## Signs -/

/-- Signs that are words of their own, whatever follows. -/
theorem readAs_lineFeed (more : List Char) : ReadAs .newline ['\n'] more :=
  ⟨'\n', [], rfl, rfl, by simp [lexeme, isDecimalDigit_lineFeed]⟩

theorem readAs_comma (more : List Char) : ReadAs .comma [','] more := by
  have hdigit : Unicode.isDecimalDigit ',' = false := rfl
  exact ⟨',', [], rfl, rfl, by simp [lexeme, hdigit]⟩

theorem readAs_doubleAt (more : List Char) : ReadAs .doubleAt ['@', '@'] more := by
  have hdigit : Unicode.isDecimalDigit '@' = false := rfl
  exact ⟨'@', ['@'], rfl, rfl, by simp [lexeme, hdigit]⟩

theorem readAs_at (more : List Char) : ReadAs .at ['@'] (' ' :: more) := by
  have hdigit : Unicode.isDecimalDigit '@' = false := rfl
  exact ⟨'@', [], rfl, rfl, by simp [lexeme, hdigit]⟩

theorem readAs_hash (more : List Char) : ReadAs .hash ['#'] (' ' :: more) := by
  have hdigit : Unicode.isDecimalDigit '#' = false := rfl
  have hcount : countWhile inTag (' ' :: more) = 0 :=
    countWhile_append (l := []) (by simp) (by simp [inTag])
  exact ⟨'#', [], rfl, rfl, by simp [lexeme, hdigit, hcount]⟩

theorem readAs_leftBrace (hmore : ∀ c ∈ more.head?, c ≠ '\x7b') :
    ReadAs .leftBrace ['\x7b'] more := by
  have hdigit : Unicode.isDecimalDigit '\x7b' = false := rfl
  refine ⟨'\x7b', [], rfl, rfl, ?_⟩
  cases more with
  | nil => simp [lexeme, hdigit]
  | cons c more => simp [lexeme, hdigit, hmore c rfl]

theorem readAs_rightBrace (hmore : Follow [' ', '\n'] more) : ReadAs .rightBrace ['\x7d'] more := by
  have hdigit : Unicode.isDecimalDigit '\x7d' = false := rfl
  refine ⟨'\x7d', [], rfl, rfl, ?_⟩
  cases more with
  | nil => simp [lexeme, hdigit]
  | cons c more =>
    have hc : c ≠ '\x7d' := by
      rintro rfl
      exact absurd (hmore _ rfl) (by decide)
    simp [lexeme, hdigit, hc]

theorem readAs_doubleLeftBrace (more : List Char) :
    ReadAs .doubleLeftBrace ['\x7b', '\x7b'] more := by
  have hdigit : Unicode.isDecimalDigit '\x7b' = false := rfl
  exact ⟨'\x7b', ['\x7b'], rfl, rfl, by simp [lexeme, hdigit]⟩

theorem readAs_doubleRightBrace (more : List Char) :
    ReadAs .doubleRightBrace ['\x7d', '\x7d'] more := by
  have hdigit : Unicode.isDecimalDigit '\x7d' = false := rfl
  exact ⟨'\x7d', ['\x7d'], rfl, rfl, by simp [lexeme, hdigit]⟩

/-- A flag stands inside a line. -/
theorem flagKind_ne (flag : Char) : flagKind flag ≠ .newline ∧ flagKind flag ≠ .indent := by
  unfold flagKind
  split
  · decide
  · split <;> decide

end Token

open Token

/-! ## Words of the parts of a transaction -/

variable {more : List Char} {ws : List Word}

/-- A part that may be missing, with a blank in front. -/
theorem scans_option {α : Type} {o : Option α} {f : α → List Char} {g : α → List Word}
    (h : ∀ a ∈ o, Scans false (f a ++ more) (g a ++ ws)) (hmore : Scans false more ws) :
    Scans false ((o.elim [] fun a => ' ' :: f a) ++ more) (o.elim [] g ++ ws) := by
  cases o with
  | none => exact hmore
  | some a => exact (h a rfl).blank

theorem follow_option {α : Type} (o : Option α) (f : α → List Char)
    (h : Follow [' ', '\n'] more) :
    Follow [' ', '\n'] ((o.elim [] fun a => ' ' :: f a) ++ more) := by
  cases o with
  | none => exact h
  | some a => exact follow_blank _ (by decide)

/-- Indented lines after one another, told from how each of them is scanned. -/
theorem scans_lines {α : Type} {items : List α} {text : α → List Char} {words : α → List Word}
    (h : ∀ a ∈ items, ∀ more ws, Scans false more ws → Follow ['\n'] more →
      Scans true (text a ++ more) ((.indent, [' ', ' ']) :: (words a ++ ws)))
    (hmore : Scans false more ws) (hfollow : Follow ['\n'] more) :
    Scans false ((items.flatMap fun a => '\n' :: text a) ++ more)
        ((items.flatMap fun a => (.newline, ['\n']) :: (.indent, [' ', ' ']) :: words a) ++ ws) ∧
      Follow ['\n'] ((items.flatMap fun a => '\n' :: text a) ++ more) := by
  induction items with
  | nil => exact ⟨hmore, hfollow⟩
  | cons a items ih =>
    obtain ⟨ha, hitems⟩ := List.forall_mem_cons.1 h
    obtain ⟨hscans, hfollow⟩ := ih hitems
    constructor
    · simpa using (readAs_lineFeed _).scans (b := false) (ha _ _ hscans hfollow)
    · rintro c ⟨⟩
      decide

/-- A string in quotes. -/
def quoted (s : String) : List Char := '"' :: s.toList ++ ['"']

/-- The words of an amount. -/
def Amount.words (a : Amount) : List Word :=
  [(.number, a.number.toChars), (.currency, a.currency.toList)]

theorem Amount.toList_text (a : Amount) :
    a.text.toList = a.number.toChars ++ ' ' :: a.currency.toList := by
  change (a.number.text ++ " " ++ a.currency).toList = _
  simp [Decimal.text]

theorem Amount.scans_text {a : Amount} (h : IsCurrency a.currency.toList)
    (hmore : Scans false more ws)
    (hfollow : Follow [' ', '\n', ',', '\x7d'] more) :
    Scans false (a.text.toList ++ more) (a.words ++ ws) := by
  rw [toList_text, List.append_assoc, List.cons_append]
  refine (readAs_number a.number (follow_blank _ (by decide))).scans (Scans.blank ?_)
  exact (readAs_currency h (hfollow.mono (by simp))).scans hmore

/-- The words of units. -/
def Units.words : Units → List Word
  | .complete a => a.words
  | .numberOnly n => [(.number, n.toChars)]
  | .currencyOnly c => [(.currency, c.toList)]

theorem Units.scans_text {u : Units} (h : ∀ c ∈ u.currency?, IsCurrency c.toList)
    (hmore : Scans false more ws) (hfollow : Follow [' ', '\n'] more) :
    Scans false (u.text.toList ++ more) (u.words ++ ws) := by
  have hfollow' : Follow [' ', '\n', ',', '\x7d'] more := hfollow.mono (by simp)
  cases u with
  | complete a => exact a.scans_text (h _ rfl) hmore hfollow'
  | numberOnly n =>
    rw [text, Decimal.text, String.toList_ofList]
    exact (readAs_number n hfollow).scans hmore
  | currencyOnly c => exact (readAs_currency (h c rfl) (hfollow.mono (by simp))).scans hmore

/-- The words of a price. -/
def Price.words : Price → List Word
  | .unit a => (.at, ['@']) :: a.words
  | .total a => (.doubleAt, ['@', '@']) :: a.words

theorem Price.scans_text {q : Price} (h : IsCurrency q.amount.currency.toList)
    (hmore : Scans false more ws) (hfollow : Follow [' ', '\n'] more) :
    Scans false (q.text.toList ++ more) (q.words ++ ws) := by
  have hfollow' : Follow [' ', '\n', ',', '\x7d'] more := hfollow.mono (by simp)
  cases q with
  | unit a =>
    have htext : (Price.unit a).text.toList = ['@'] ++ ' ' :: a.text.toList := by
      change ("@ " ++ a.text).toList = _
      simp
    rw [htext, List.append_assoc, List.cons_append]
    exact (readAs_at _).scans (a.scans_text h hmore hfollow').blank
  | total a =>
    have htext : (Price.total a).text.toList = ['@', '@'] ++ ' ' :: a.text.toList := by
      change ("@@ " ++ a.text).toList = _
      simp
    rw [htext, List.append_assoc, List.cons_append]
    exact (readAs_doubleAt _).scans (a.scans_text h hmore hfollow').blank

namespace Cost

/-- Whether the text of a cost says all of it: the label needs no backslashes, and there is at most
one number, which has a currency. -/
structure Printable (cost : Cost) : Prop where
  label : ∀ label ∈ cost.label, Plain label.toList
  number : cost.perUnit = none ∧ cost.total = none ∨
    cost.currency.isSome ∧ cost.perUnit.isSome ≠ cost.total.isSome

/-- What is printed of a cost between two commas. -/
structure Part where
  chars : List Char
  words : List Word
  /-- What reading it puts into a cost. -/
  put : Cost → Cost

/-- The part that tells the number and the currency, if anything is printed of them. -/
def valuePart? (cost : Cost) : Option Part :=
  match cost.perUnit, cost.total, cost.currency with
  | some n, _, some c => some {
      chars := (⟨n, c⟩ : Amount).text.toList
      words := (⟨n, c⟩ : Amount).words
      put := fun cost => { cost with perUnit := some n.readBack, currency := some c } }
  | none, some n, some c => some {
      chars := '#' :: ' ' :: (⟨n, c⟩ : Amount).text.toList
      words := (.hash, ['#']) :: (⟨n, c⟩ : Amount).words
      put := fun cost => { cost with total := some n.readBack, currency := some c } }
  | none, none, some c => some {
      chars := c.toList
      words := [(.currency, c.toList)]
      put := fun cost => { cost with currency := some c } }
  | _, _, none => none

def datePart (d : Date) : Part where
  chars := d.toChars
  words := [(.date, d.toChars)]
  put := fun cost => { cost with date := some d }

def labelPart (label : String) : Part where
  chars := quoted label
  words := [(.string, quoted label)]
  put := fun cost => { cost with label := some label }

/-- All parts of a cost. -/
def parts (cost : Cost) : List Part :=
  cost.valuePart?.toList ++ (cost.date.toList.map datePart ++ cost.label.toList.map labelPart)

/-- The words of a cost. -/
def words (cost : Cost) : List Word :=
  (.leftBrace, ['\x7b']) ::
    ([(.comma, [','])] : List Word).intercalate (cost.parts.map Part.words) ++
      [(.rightBrace, ['\x7d'])]

theorem toList_text (cost : Cost) :
    cost.text.toList =
      '\x7b' :: [',', ' '].intercalate (cost.parts.map Part.chars) ++ ['\x7d'] := by
  obtain ⟨perUnit, total, currency, date, label⟩ := cost
  have hquoted (label : String) : s!"\"{label}\"".toList = quoted label := by
    change ("\"" ++ label ++ "\"").toList = _
    simp [quoted]
  have htotal (a : Amount) :
      s!"# {a.number} {a.currency}".toList = '#' :: ' ' :: a.text.toList := by
    change ("# " ++ a.number.text ++ " " ++ a.currency).toList = _
    simp [Decimal.text, Amount.toList_text]
  have hopen : "\x7b".toList = ['\x7b'] := rfl
  have hclose : "\x7d".toList = ['\x7d'] := rfl
  have hcomma : ", ".toList = [',', ' '] := rfl
  rw [text, String.toList_append, String.toList_append, String.toList_intercalate, hopen, hclose,
    hcomma, List.singleton_append]
  refine congrArg (fun pieces => '\x7b' :: [',', ' '].intercalate pieces ++ ['\x7d']) ?_
  have hdate (d : Date) : d.text.toList = d.toChars := String.toList_ofList
  simp only [parts, List.map_append, List.map_map, List.append_assoc]
  refine congrArg₂ (· ++ ·) ?_ (congrArg₂ (· ++ ·) ?_ ?_)
  · match perUnit, total, currency with
    | some n, _, some c => rfl
    | none, some n, some c => exact congrArg ([·]) (htotal ⟨n, c⟩)
    | none, none, some c => rfl
    | none, none, none | none, some _, none | some _, none, none | some _, some _, none => rfl
  · exact List.map_congr_left fun d _ => hdate d
  · exact List.map_congr_left fun label _ => hquoted label

/-- The part is scanned as its words between the braces of a cost. -/
structure Part.IsScanned (part : Part) : Prop where
  begins : ∃ c cs, part.chars = c :: cs ∧ c ≠ '\x7b'
  scans : ∀ {more : List Char} {ws : List Word}, Follow [',', '\x7d'] more →
    Scans false more ws → Scans false (part.chars ++ more) (part.words ++ ws)

/-- A number begins with a digit or its sign. -/
theorem begins_text (a : Amount) : ∃ c cs, a.text.toList = c :: cs ∧ c ≠ '\x7b' := by
  obtain ⟨c, tail, hcons, -⟩ := readAs_number a.number (follow_blank [] (List.mem_cons_self))
  refine ⟨c, tail ++ ' ' :: a.currency.toList, by rw [Amount.toList_text, hcons]; rfl, ?_⟩
  rintro rfl
  have hbrace : '\x7b' ∈ a.number.toChars := hcons ▸ List.mem_cons_self
  exact absurd (Decimal.of_mem_toChars hbrace) (by decide)

theorem isScanned_of_mem_parts {cost : Cost}
    (hcurrency : ∀ c ∈ cost.currency, IsCurrency c.toList) (hprintable : cost.Printable)
    {part : Part} (h : part ∈ cost.parts) : part.IsScanned := by
  obtain ⟨perUnit, total, currency, date, label⟩ := cost
  simp only [parts, List.mem_append, List.mem_map, Option.mem_toList] at h
  obtain h | ⟨d, -, rfl⟩ | ⟨s, hs, rfl⟩ := h
  · unfold valuePart? at h
    split at h
    · next n c _ hc =>
      obtain rfl := Option.some.inj h
      refine ⟨?_, fun hfollow hmore => ?_⟩
      · dsimp only
        exact begins_text ⟨n, c⟩
      · dsimp only
        exact Amount.scans_text (hcurrency c hc) hmore (hfollow.mono (by simp))
    · next n c _ _ hc =>
      obtain rfl := Option.some.inj h
      refine ⟨⟨'#', _, rfl, by decide⟩, fun hfollow hmore => ?_⟩
      have hamount := Amount.scans_text (a := ⟨n, c⟩) (hcurrency c hc) hmore
        (hfollow.mono (by simp))
      change Scans false (['#'] ++ ' ' :: ((⟨n, c⟩ : Amount).text.toList ++ _)) _
      exact (readAs_hash _).scans hamount.blank
    · next c _ _ hc =>
      obtain rfl := Option.some.inj h
      obtain ⟨first, rest, hcons, -, hupper, -⟩ := hcurrency c hc
      refine ⟨⟨first, rest, hcons, ?_⟩, fun hfollow hmore => ?_⟩
      · rintro rfl
        cases hupper
      · exact (readAs_currency (hcurrency c hc) (hfollow.mono (by simp))).scans hmore
    · cases h
  · obtain ⟨c, tail, hcons, hdigit⟩ := exists_toChars_eq_cons d
    refine ⟨⟨c, tail, hcons, ?_⟩, fun _ hmore => (readAs_date d _).scans hmore⟩
    rintro rfl
    cases hdigit
  · have hstring := readAs_string (hprintable.label s hs)
    exact ⟨⟨'"', _, rfl, by decide⟩, fun _ hmore => (hstring _).scans hmore⟩

theorem scans_parts {parts : List Part} (h : ∀ part ∈ parts, part.IsScanned)
    (hmore : Scans false more ws) (hfollow : Follow [',', '\x7d'] more) :
    Scans false ([',', ' '].intercalate (parts.map Part.chars) ++ more)
      (([(.comma, [','])] : List Word).intercalate (parts.map Part.words) ++ ws) := by
  induction parts with
  | nil => exact hmore
  | cons part parts ih =>
    obtain ⟨hpart, hparts⟩ := List.forall_mem_cons.1 h
    cases parts with
    | nil => simpa using hpart.scans hfollow hmore
    | cons next parts =>
      have hnext := (readAs_comma _).scans (b := false) (ih hparts).blank
      simp only [List.map_cons, List.intercalate_cons_cons, List.append_assoc] at hnext ⊢
      exact hpart.scans (by rintro c ⟨⟩; decide) hnext

theorem scans_text {cost : Cost} (hcurrency : ∀ c ∈ cost.currency, IsCurrency c.toList)
    (hprintable : cost.Printable) (hmore : Scans false more ws)
    (hfollow : Follow [' ', '\n'] more) :
    Scans false (cost.text.toList ++ more) (cost.words ++ ws) := by
  have hparts : ∀ part ∈ cost.parts, part.IsScanned := fun part h =>
    isScanned_of_mem_parts hcurrency hprintable h
  have hclose : Scans false ('\x7d' :: more) ((.rightBrace, ['\x7d']) :: ws) :=
    (readAs_rightBrace hfollow).scans hmore
  have hinside := scans_parts hparts hclose (by rintro c ⟨⟩; decide)
  have hopen : ∀ c ∈ ([',', ' '].intercalate (cost.parts.map Part.chars) ++ '\x7d' :: more).head?,
      c ≠ '\x7b' := by
    cases hcons : cost.parts with
    | nil =>
      rintro c ⟨⟩
      decide
    | cons part parts =>
      obtain ⟨first, rest, hfirst, hne⟩ := (hparts part (hcons ▸ List.mem_cons_self)).begins
      have hbegin : ∃ tail, [',', ' '].intercalate ((part :: parts).map Part.chars) =
          first :: tail := by
        cases parts with
        | nil => exact ⟨rest, by simp [hfirst]⟩
        | cons next parts => exact ⟨_, by simp [List.intercalate_cons_cons, hfirst]; rfl⟩
      obtain ⟨tail, htail⟩ := hbegin
      rw [htail]
      rintro c ⟨⟩
      exact hne
  rw [toList_text, words, List.append_assoc, List.append_assoc]
  exact (readAs_leftBrace hopen).scans hinside

end Cost

namespace Posting

/-- The words of a posting, without the blanks in front. -/
def words (p : Posting) : List Word :=
  (p.flag.toList.map fun flag => (flagKind flag, [flag])) ++ (.account, p.account.toList) ::
    (p.units.elim [] Units.words ++ (p.cost.elim [] Cost.words ++ p.price.elim [] Price.words))

theorem toList_text (p : Posting) :
    p.text.toList = ' ' :: ' ' :: ((p.flag.elim [] fun flag => [flag, ' ']) ++ (p.account.toList ++
      ((p.units.elim [] fun u => ' ' :: ' ' :: u.text.toList) ++
        ((p.cost.elim [] fun c => ' ' :: c.text.toList) ++
          p.price.elim [] fun q => ' ' :: q.text.toList)))) := by
  obtain ⟨account, units, cost, price, flag, metadata⟩ := p
  have helim {α : Type} (o : Option α) (f : α → String) :
      (o.elim "" f).toList = o.elim [] fun a => (f a).toList := by
    cases o <;> rfl
  have hone : " ".toList = [' '] := rfl
  have htwo : "  ".toList = [' ', ' '] := rfl
  simp only [text, String.toList_append, helim, hone, htwo, List.append_assoc, List.cons_append,
    List.nil_append, Char.toString_eq_singleton, String.toList_singleton]

theorem scans_text {p : Posting} (h : p.IsWritten)
    (hprintable : ∀ cost ∈ p.cost, cost.Printable)
    (hmore : Scans false more ws) (hfollow : Follow ['\n'] more) :
    Scans true (p.text.toList ++ more) ((.indent, [' ', ' ']) :: (p.words ++ ws)) := by
  have hend : Follow [' ', '\n'] more := hfollow.mono (by simp)
  have hprice := scans_option
    (fun (q : Price) hq => q.scans_text (h.price q hq) hmore hend) hmore
  have hbeforePrice := follow_option p.price (fun q => q.text.toList) hend
  have hcost := scans_option
    (fun (c : Cost) hc => c.scans_text (h.cost c hc) (hprintable c hc) hprice hbeforePrice) hprice
  have hbeforeCost := follow_option p.cost (fun c => c.text.toList) hbeforePrice
  have hunits := scans_option (o := p.units) (f := fun u => ' ' :: u.text.toList)
    (fun (u : Units) hu => (u.scans_text (h.units u hu) hcost hbeforeCost).blank) hcost
  have hbeforeUnits := follow_option p.units (fun u => ' ' :: u.text.toList) hbeforeCost
  have haccount := readAs_account h.account hbeforeUnits
  rw [toList_text, words]
  cases hflag : p.flag with
  | none =>
    have hall := haccount.scans_indent (by decide) hunits
    simpa using hall
  | some flag =>
    have hall := (readAs_flag (h.flag flag hflag) _).scans_indent (flagKind_ne flag).1
      (haccount.scans hunits).blank
    simpa using hall

end Posting

namespace Transaction

/-- The words after the flag on the first line of a transaction. -/
def headWords (t : Transaction) : List Word :=
  ((t.payee.toList ++ [t.narration]).map fun s => (.string, quoted s)) ++
    ((t.tags.map fun tag => (.tag, '#' :: tag.toList)) ++
      t.links.map fun link => (.link, '^' :: link.toList))

/-- The words of a transaction with a date. -/
def words (t : Transaction) (date : Date) : List Word :=
  (.date, date.toChars) :: (flagKind t.flag, [t.flag]) :: t.headWords ++
    t.postings.flatMap fun p => (.newline, ['\n']) :: (.indent, [' ', ' ']) :: p.words

theorem toList_text (t : Transaction) (date : Date) :
    (t.text date).toList = date.toChars ++ (' ' :: t.flag :: ' ' ::
      ((t.payee.elim [] fun p => quoted p ++ [' ']) ++ (quoted t.narration ++
        ((t.tags.flatMap fun tag => ' ' :: '#' :: tag.toList) ++
          ((t.links.flatMap fun link => ' ' :: '^' :: link.toList) ++
            t.postings.flatMap fun p => '\n' :: p.text.toList))))) := by
  have hpayee : (t.payee.elim "" fun p => s!"\"{p}\" ").toList =
      t.payee.elim [] fun p => quoted p ++ [' '] := by
    cases t.payee with
    | none => rfl
    | some p =>
      change ("\"" ++ p ++ "\" ").toList = _
      simp [quoted]
  have htag (tag : String) : s!" #{tag}".toList = ' ' :: '#' :: tag.toList := by
    change (" #" ++ tag).toList = _
    simp
  have hlink (link : String) : s!" ^{link}".toList = ' ' :: '^' :: link.toList := by
    change (" ^" ++ link).toList = _
    simp
  have hposting (p : Posting) : ("\n" ++ p.text).toList = '\n' :: p.text.toList := by simp
  have hhead (payee : String) : s!"{date} {t.flag} {payee}\"{t.narration}\"".toList =
      date.toChars ++ (' ' :: t.flag :: ' ' :: (payee.toList ++ quoted t.narration)) := by
    change (date.text ++ " " ++ t.flag.toString ++ " " ++ payee ++ "\"" ++ t.narration ++
      "\"").toList = _
    simp [Date.text, quoted]
  simp only [text, String.toList_append, hhead, hpayee, String.toList_join, List.flatMap_append,
    List.flatMap_map, htag, hlink, hposting, List.append_assoc, List.cons_append]

theorem scans_postings {postings : List Posting} (h : ∀ p ∈ postings, p.IsWritten)
    (hprintable : ∀ p ∈ postings, ∀ cost ∈ p.cost, cost.Printable) (hmore : Scans false more ws)
    (hfollow : Follow ['\n'] more) :
    Scans false ((postings.flatMap fun p => '\n' :: p.text.toList) ++ more)
        ((postings.flatMap fun p => (.newline, ['\n']) :: (.indent, [' ', ' ']) :: p.words) ++ ws) ∧
      Follow ['\n'] ((postings.flatMap fun p => '\n' :: p.text.toList) ++ more) :=
  scans_lines (fun p hp _ _ => p.scans_text (h p hp) (hprintable p hp)) hmore hfollow

/-- Tags or links after one another, with a blank in front of each. -/
theorem scans_names {names : List String} {sign : Char} {kind : Token.Kind}
    (hsign : (sign, kind) ∈ nameSigns) (h : ∀ name ∈ names, IsName name.toList)
    (hmore : Scans false more ws) (hfollow : Follow [' ', '\n'] more) :
    Scans false ((names.flatMap fun name => ' ' :: sign :: name.toList) ++ more)
        ((names.map fun name => (kind, sign :: name.toList)) ++ ws) ∧
      Follow [' ', '\n'] ((names.flatMap fun name => ' ' :: sign :: name.toList) ++ more) := by
  induction names with
  | nil => exact ⟨hmore, hfollow⟩
  | cons name names ih =>
    obtain ⟨hname, hnames⟩ := List.forall_mem_cons.1 h
    obtain ⟨hscans, hfollow⟩ := ih hnames
    refine ⟨?_, follow_blank _ (by decide)⟩
    have hkind : kind ≠ .newline := by
      rintro rfl
      simp [nameSigns] at hsign
    rw [← decide_eq_false hkind] at hscans
    have hall := ((readAs_name hsign hname hfollow).scans hscans).blank
    simpa using hall

/-- Whether the text of a transaction says all of it: its strings need no backslashes, and its costs
have texts that say all of them. -/
structure Printable (t : Transaction) : Prop where
  payee : ∀ s ∈ t.payee, Plain s.toList
  narration : Plain t.narration.toList
  cost : ∀ p ∈ t.postings, ∀ cost ∈ p.cost, cost.Printable

/-- The text of a transaction in front of a line break is scanned as its words. -/
theorem scans_text_append {t : Transaction} (h : t.IsWritten) (hprintable : t.Printable)
    (date : Date) (hmore : Scans false more ws) (hfollow : Follow ['\n'] more) :
    Scans true ((t.text date).toList ++ more) (t.words date ++ ws) := by
  obtain ⟨hpostings, hfollow⟩ := scans_postings h.postings hprintable.cost hmore hfollow
  obtain ⟨hlinks, hfollow⟩ := scans_names (by decide : ('^', .link) ∈ nameSigns) h.links.2
    hpostings (hfollow.mono (by simp))
  obtain ⟨htags, -⟩ := scans_names (by decide : ('#', .tag) ∈ nameSigns) h.tags.2 hlinks hfollow
  have hnarration := (readAs_string hprintable.narration _).scans (b := false) htags
  have hflag (more : List Char) {ws : List Word} (hmore : Scans false (' ' :: more) ws) :
      Scans false (t.flag :: ' ' :: more) ((flagKind t.flag, [t.flag]) :: ws) := by
    rw [← decide_eq_false (flagKind_ne t.flag).1] at hmore
    exact (readAs_flag h.flag more).scans hmore
  rw [toList_text, words]
  simp only [List.append_assoc, List.cons_append]
  refine (readAs_date date _).scans (Scans.blank (hflag _ (Scans.blank ?_)))
  rw [headWords, List.append_assoc, List.append_assoc]
  cases hpayee : t.payee with
  | none => exact hnarration
  | some p =>
    have hall := (readAs_string (hprintable.payee p hpayee) _).scans (b := false)
      hnarration.blank
    simpa [quoted] using hall

/-- The text of a transaction is scanned as its words. -/
theorem scans_text {t : Transaction} (h : t.IsWritten) (hprintable : t.Printable) (date : Date) :
    Scans true (t.text date).toList (t.words date) := by
  have hall := scans_text_append h hprintable date (scans_nil false) (by rintro c ⟨⟩)
  rwa [List.append_nil, List.append_nil] at hall

end Transaction

end DoubleEntry
