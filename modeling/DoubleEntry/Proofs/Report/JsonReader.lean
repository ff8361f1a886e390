import DoubleEntry.Proofs.Decimal.Text
import DoubleEntry.Report.JsonValue

/-!
# Reading JSON

A reader of JSON texts, one character after the other, and what it makes of the text of a value.

* `JsonReader.step`: what one character does, given what is being read and what it is part of.
* `JsonValue.ofText?`: the value of a text. Blanks between the parts are passed over, all escapes are
  read. There is no value for fractions, signs, truth values and nulls, as `JsonValue` has none.
* `JsonValue.ofText?_text`: the text of a value is read back as the value.
* `JsonValue.plain_toChars`: the text of a value has no control characters, so no line breaks.
-/

namespace DoubleEntry

namespace JsonReader

/-! ## The reader -/

/-- An array or object of which some parts have been read. -/
inductive Frame where
  | array (values : List JsonValue)
  /-- The next key of an object is to be read. -/
  | object (fields : List (String × JsonValue))
  /-- The value of a key is to be read. -/
  | field (fields : List (String × JsonValue)) (key : String)

/-- What is being read at the moment. -/
inductive Mode where
  /-- A value begins; after the bracket that opens an array it may also end. -/
  | value (mayEnd : Bool)
  /-- A key begins; after the brace that opens an object it may also end. -/
  | key (mayEnd : Bool)
  /-- The colon after a key. -/
  | colon (key : String)
  /-- What follows a value. -/
  | after (v : JsonValue)
  /-- More digits of a number. -/
  | digits (n : Nat)
  /-- A string, of a key or of a value. -/
  | string (isKey : Bool) (read : List Char)
  /-- What follows a backslash. -/
  | escape (isKey : Bool) (read : List Char)
  /-- The hexadecimal digits of an escape. The first half of a pair that stands for one character may
  have been read before. -/
  | hex (isKey : Bool) (read : List Char) (half : Option Nat) (count code : Nat)
  /-- The backslash, and then the `u`, of the second half of a pair. -/
  | half (isKey : Bool) (read : List Char) (half : Nat) (backslash : Bool)

/-- What is being read, and what it is part of, from the inside out. -/
abbrev State := Mode × List Frame

/-- A blank between the parts of a value. -/
def isBlank (c : Char) : Bool := c = ' ' || c = '\n' || c = '\r' || c = '\t'

/-- The value of a hexadecimal digit. -/
def hexDigit? (c : Char) : Option Nat :=
  if c.isDigit then some (c.toNat - '0'.toNat)
  else if 'a' ≤ c ∧ c ≤ 'f' then some (c.toNat - 'a'.toNat + 10)
  else if 'A' ≤ c ∧ c ≤ 'F' then some (c.toNat - 'A'.toNat + 10)
  else none

/-- The first character of a value. -/
def begin? (c : Char) (stack : List Frame) : Option State :=
  if c = '"' then some (.string false [], stack)
  else if c = '[' then some (.value true, .array [] :: stack)
  else if c = '\x7b' then some (.key true, .object [] :: stack)
  else (digit? c).map (.digits ·, stack)

/-- The first character after a value that is no blank. -/
def afterValue? (v : JsonValue) (c : Char) : List Frame → Option State
  | .array values :: stack =>
    if c = ',' then some (.value false, .array (values ++ [v]) :: stack)
    else if c = ']' then some (.after (.array (values ++ [v])), stack)
    else none
  | .field fields key :: stack =>
    if c = ',' then some (.key false, .object (fields ++ [(key, v)]) :: stack)
    else if c = '\x7d' then some (.after (.object (fields ++ [(key, v)])), stack)
    else none
  | _ => none

/-- The character after a value. -/
def after? (v : JsonValue) (c : Char) (stack : List Frame) : Option State :=
  if isBlank c then some (.after v, stack) else afterValue? v c stack

/-- The character that a backslash and a letter stand for. -/
def escaped? : Char → Option Char
  | '"' => some '"'
  | '\\' => some '\\'
  | '/' => some '/'
  | 'n' => some '\n'
  | 'r' => some '\r'
  | 't' => some '\t'
  | 'b' => some '\x08'
  | 'f' => some '\x0c'
  | _ => none

/-- What the four digits of an escape stand for: a character, or one half of a pair. -/
def hexDone? (isKey : Bool) (read : List Char) (half : Option Nat) (code : Nat) : Option Mode :=
  match half with
  | some high =>
    if 0xDC00 ≤ code ∧ code < 0xE000 then
      let c := Char.ofNat (0x10000 + (high - 0xD800) * 0x400 + (code - 0xDC00))
      some (.string isKey (read ++ [c]))
    else none
  | none =>
    if 0xD800 ≤ code ∧ code < 0xDC00 then some (.half isKey read code false)
    else if 0xDC00 ≤ code ∧ code < 0xE000 then none
    else some (.string isKey (read ++ [Char.ofNat code]))

/-- The character where a value begins, or where an array ends at once. -/
def value? (mayEnd : Bool) (c : Char) (stack : List Frame) : Option State :=
  if isBlank c then some (.value mayEnd, stack)
  else
    match mayEnd, stack with
    | true, .array values :: rest =>
      if c = ']' then some (.after (.array values), rest) else begin? c stack
    | _, _ => begin? c stack

/-- The character where a key begins, or where an object ends at once. -/
def key? (mayEnd : Bool) (c : Char) (stack : List Frame) : Option State :=
  if isBlank c then some (.key mayEnd, stack)
  else if c = '"' then some (.string true [], stack)
  else
    match mayEnd, stack with
    | true, .object fields :: rest =>
      if c = '\x7d' then some (.after (.object fields), rest) else none
    | _, _ => none

/-- The character after a key. -/
def colon? (key : String) (c : Char) (stack : List Frame) : Option State :=
  if isBlank c then some (.colon key, stack)
  else
    match stack with
    | .object fields :: rest =>
      if c = ':' then some (.value false, .field fields key :: rest) else none
    | _ => none

/-- The character after a digit. A number with more digits does not begin with zero. -/
def digits? (n : Nat) (c : Char) (stack : List Frame) : Option State :=
  match digit? c with
  | some d => if n = 0 then none else some (.digits (n * 10 + d), stack)
  | none => after? (.number n) c stack

/-- A character of a string. -/
def string? (isKey : Bool) (read : List Char) (c : Char) : Option Mode :=
  if c = '"' then
    let s := String.ofList read
    some (if isKey then .colon s else .after (.string s))
  else if c = '\\' then some (.escape isKey read)
  else if c.toNat < 0x20 then none
  else some (.string isKey (read ++ [c]))

/-- The character after a backslash. -/
def escape? (isKey : Bool) (read : List Char) (c : Char) : Option Mode :=
  if c = 'u' then some (.hex isKey read none 0 0)
  else (escaped? c).map fun e => .string isKey (read ++ [e])

/-- A digit of an escape. -/
def hex? (isKey : Bool) (read : List Char) (half : Option Nat) (count code : Nat) (c : Char) :
    Option Mode :=
  (hexDigit? c).bind fun d =>
    if count = 3 then hexDone? isKey read half (code * 16 + d)
    else some (.hex isKey read half (count + 1) (code * 16 + d))

/-- A character in front of the digits of the second half of a pair. -/
def half? (isKey : Bool) (read : List Char) (high : Nat) (backslash : Bool) (c : Char) :
    Option Mode :=
  if backslash then if c = 'u' then some (.hex isKey read (some high) 0 0) else none
  else if c = '\\' then some (.half isKey read high true) else none

/-- What one character does. -/
def step : State → Char → Option State
  | (.value mayEnd, stack), c => value? mayEnd c stack
  | (.key mayEnd, stack), c => key? mayEnd c stack
  | (.colon key, stack), c => colon? key c stack
  | (.after v, stack), c => after? v c stack
  | (.digits n, stack), c => digits? n c stack
  | (.string isKey read, stack), c => (string? isKey read c).map (·, stack)
  | (.escape isKey read, stack), c => (escape? isKey read c).map (·, stack)
  | (.hex isKey read half count code, stack), c => (hex? isKey read half count code c).map (·, stack)
  | (.half isKey read high backslash, stack), c => (half? isKey read high backslash c).map (·, stack)

/-- What some characters do, one after the other. -/
def run (s : State) (cs : List Char) : Option State := cs.foldlM step s

/-- The value that was read, if nothing is missing. -/
def finish? : State → Option JsonValue
  | (.after v, []) => some v
  | (.digits n, []) => some (.number n)
  | _ => none

end JsonReader

/-- The value that a text writes. -/
def JsonValue.ofText? (s : String) : Option JsonValue :=
  (JsonReader.run (.value false, []) s.toList).bind JsonReader.finish?

example : JsonValue.ofText? " \x7b \"a\" : [ 10 , \"\\ud83d\\uDE00\" ] \x7d " =
    some (.object [("a", .array [.number 10, .string "😀"])]) := by cbv

namespace JsonReader

variable {v : JsonValue} {c : Char} {cs : List Char} {s : State} {stack : List Frame}
  {isKey mayEnd : Bool} {read : List Char}

theorem run_cons (s : State) (c : Char) (cs : List Char) :
    run s (c :: cs) = (step s c).bind (run · cs) := List.foldlM_cons

theorem run_append (s : State) (cs cs' : List Char) :
    run s (cs ++ cs') = (run s cs).bind (run · cs') := List.foldlM_append

theorem run_singleton (s : State) (c : Char) : run s [c] = step s c := by
  rw [run_cons]
  cases step s c <;> rfl

/-! ## Strings -/

theorem hexDigit?_digitChar {d : Nat} (h : d < 16) : hexDigit? (Nat.digitChar d) = some d := by
  have hall : ∀ d < 16, hexDigit? (Nat.digitChar d) = some d := by decide
  exact hall d h

/-- The escape of a character is read as the character. -/
theorem run_escape (isKey : Bool) (read : List Char) (stack : List Frame) (c : Char) :
    run (.string isKey read, stack) (JsonValue.escape c) =
      some (.string isKey (read ++ [c]), stack) := by
  unfold JsonValue.escape
  split
  · rfl
  · rfl
  · rfl
  · rfl
  · rfl
  · rfl
  · rfl
  · next hquote hbackslash _ _ _ _ _ =>
    split
    · next hcontrol =>
      have hhigh := hexDigit?_digitChar (show c.toNat / 16 < 16 by omega)
      have hlow := hexDigit?_digitChar (show c.toNat % 16 < 16 by omega)
      have hcode : (0 * 16 + c.toNat / 16) * 16 + c.toNat % 16 = c.toNat := by omega
      have hdone : hexDone? isKey read none c.toNat = some (.string isKey (read ++ [c])) := by
        rw [hexDone?, if_neg (by omega), if_neg (by omega), Char.ofNat_toNat]
      have hstart : run (.string isKey read, stack) ['\\', 'u'] =
          some (.hex isKey read none 0 0, stack) := rfl
      have hzeros : run (.hex isKey read none 0 0, stack) ['0', '0'] =
          some (.hex isKey read none 2 0, stack) := rfl
      have hdigits : run (.hex isKey read none 2 0, stack)
          [(c.toNat / 16).digitChar, (c.toNat % 16).digitChar] =
            some (.string isKey (read ++ [c]), stack) := by
        have hthird : hex? isKey read none 2 0 (c.toNat / 16).digitChar =
            some (.hex isKey read none 3 (0 * 16 + c.toNat / 16)) := by
          rw [hex?, hhigh]
          rfl
        have hfourth : hex? isKey read none 3 (0 * 16 + c.toNat / 16) (c.toNat % 16).digitChar =
            some (.string isKey (read ++ [c])) := by
          rw [hex?, hlow, Option.bind_some, if_pos rfl, hcode, hdone]
        rw [run_cons, step, hthird, Option.map_some, Option.bind_some, run_singleton, step, hfourth,
          Option.map_some]
      change run _ (['\\', 'u'] ++ (['0', '0'] ++ [_, _])) = _
      rw [run_append, hstart, Option.bind_some, run_append, hzeros, Option.bind_some, hdigits]
    · next hplain =>
      have hstring : string? isKey read c = some (.string isKey (read ++ [c])) := by
        rw [string?, if_neg (by simpa using hquote), if_neg (by simpa using hbackslash),
          if_neg hplain]
      rw [run_singleton, step, hstring, Option.map_some]

theorem run_escapes (isKey : Bool) (read : List Char) (stack : List Frame) (cs : List Char) :
    run (.string isKey read, stack) (cs.flatMap JsonValue.escape) =
      some (.string isKey (read ++ cs), stack) := by
  induction cs generalizing read with
  | nil => rw [List.append_nil]; rfl
  | cons c cs ih =>
    rw [List.flatMap_cons, run_append, run_escape, Option.bind_some, ih, List.append_assoc,
      List.singleton_append]

/-- The rest of a string after the first quote. -/
theorem run_string (isKey : Bool) (s : String) (stack : List Frame) :
    run (.string isKey [], stack) (s.toList.flatMap JsonValue.escape ++ ['"']) =
      some (if isKey then .colon s else .after (.string s), stack) := by
  rw [run_append, run_escapes, Option.bind_some, run_singleton, step, string?, if_pos rfl,
    List.nil_append, String.ofList_toList]
  rfl

/-! ## Values -/

/-- The value is read, if no more digits follow. -/
inductive Completes : JsonValue → Mode → Prop
  | after (v : JsonValue) : Completes v (.after v)
  | digits (n : Nat) : Completes (.number n) (.digits n)

theorem Completes.step_eq {m : Mode} (h : Completes v m) (hc : digit? c = none) :
    step (m, stack) c = after? v c stack := by
  cases h with
  | after => rfl
  | digits n => rw [step, digits?, hc]

theorem Completes.finish?_eq {m : Mode} (h : Completes v m) : finish? (m, []) = some v := by
  cases h <;> rfl

/-- A value that begins with some other character than a bracket that ends an array. -/
theorem step_value (hblank : isBlank c = false) (hend : c ≠ ']') :
    step (.value mayEnd, stack) c = begin? c stack := by
  have hvalue : value? mayEnd c stack = begin? c stack := by
    unfold value?
    rw [hblank, if_neg Bool.false_ne_true]
    split
    · rw [if_neg hend]
    · rfl
  rw [step, hvalue]

theorem step_value_of_isDigit (h : c.isDigit) :
    step (.value mayEnd, stack) c = (digit? c).map (.digits ·, stack) := by
  have hne (c' : Char) (hc' : c'.isDigit = false) : c ≠ c' := by
    rintro rfl
    rw [h] at hc'
    cases hc'
  have hblank : isBlank c = false := by
    simp [isBlank, hne ' ' rfl, hne '\n' rfl, hne '\r' rfl, hne '\t' rfl]
  rw [step_value hblank (hne ']' rfl), begin?, if_neg (hne '"' rfl), if_neg (hne '[' rfl),
    if_neg (hne '\x7b' rfl)]

theorem run_toDigits (n : Nat) :
    run (.value mayEnd, stack) (Nat.toDigits 10 n) = some (.digits n, stack) := by
  induction n using Nat.strongRecOn with
  | _ n ih =>
    have hdigit := digit?_digitChar (Nat.mod_lt n (show 0 < 10 by decide))
    by_cases hsmall : n < 10
    · rw [Nat.mod_eq_of_lt hsmall] at hdigit
      have hisDigit : (Nat.digitChar n).isDigit := by
        by_contra hnot
        rw [digit?_eq_none_iff.2 hnot] at hdigit
        cases hdigit
      rw [Nat.toDigits_of_lt_base hsmall, run_singleton, step_value_of_isDigit hisDigit, hdigit]
      rfl
    · have hlt : n / 10 < n := Nat.div_lt_self (by omega) (by decide)
      have hpos : n / 10 ≠ 0 := by omega
      have hsum : n / 10 * 10 + n % 10 = n := Nat.div_add_mod' n 10
      rw [Nat.toDigits_of_base_le (by decide) (by omega), run_append, ih (n / 10) hlt,
        Option.bind_some, run_singleton, step, digits?, hdigit]
      simp only [if_neg hpos, hsum]

/-- The end of a value, and a comma or a closing bracket or brace after it. -/
theorem run_append_of_completes {m : Mode} (h : Completes v m)
    (hv : run s cs = some (m, stack)) (hdigit : digit? c = none) (hblank : isBlank c = false)
    (rest : List Char) :
    run s (cs ++ c :: rest) = (afterValue? v c stack).bind (run · rest) := by
  rw [run_append, hv, Option.bind_some, run_cons, h.step_eq hdigit, after?, hblank,
    if_neg Bool.false_ne_true]

/-- A key and the colon after it. -/
theorem run_key (mayEnd : Bool) (before : List (String × JsonValue)) (key : String)
    (stack : List Frame) :
    run (.key mayEnd, .object before :: stack) (JsonValue.quote key ++ [':']) =
      some (.value false, .field before key :: stack) := by
  rw [JsonValue.quote, List.cons_append, List.cons_append, run_cons]
  change run (.string true [], .object before :: stack) _ = _
  rw [run_append, run_string, Option.bind_some]
  rfl

/-- The text of the value is read as the value, whatever it is part of. -/
def Reads (v : JsonValue) : Prop :=
  ∀ (mayEnd : Bool) (stack : List Frame),
    ∃ m, Completes v m ∧ run (.value mayEnd, stack) v.toChars = some (m, stack)

theorem reads_string (s : String) : Reads (.string s) := by
  intro mayEnd stack
  refine ⟨_, .after _, ?_⟩
  rw [JsonValue.toChars, JsonValue.quote, List.cons_append, run_cons,
    step_value (by decide) (by decide)]
  exact run_string false s stack

theorem reads_number (n : Nat) : Reads (.number n) := by
  intro mayEnd stack
  refine ⟨_, .digits n, ?_⟩
  rw [JsonValue.toChars, Nat.toString_eq_ofList_toDigits, String.toList_ofList]
  exact run_toDigits n

/-- Some values with commas between them, and the bracket in the end. -/
theorem run_values {mayEnd : Bool} {before : List JsonValue} {stack : List Frame}
    {v : JsonValue} {values : List JsonValue} (h : ∀ w ∈ v :: values, Reads w) :
    run (.value mayEnd, .array before :: stack)
      (JsonValue.separate (JsonValue.valuesToChars (v :: values)) ++ [']']) =
        some (.after (.array (before ++ v :: values)), stack) := by
  induction values generalizing mayEnd before v with
  | nil =>
    obtain ⟨m, hm, hv⟩ := h v List.mem_cons_self mayEnd (.array before :: stack)
    exact run_append_of_completes hm hv (by decide) (by decide) []
  | cons w values ih =>
    obtain ⟨m, hm, hv⟩ := h v List.mem_cons_self mayEnd (.array before :: stack)
    have hcomma := run_append_of_completes hm hv (c := ',') (by decide) (by decide)
      (JsonValue.separate (JsonValue.valuesToChars (w :: values)) ++ [']'])
    have htail : ∀ u ∈ w :: values, Reads u := fun u hu => h u (List.mem_cons_of_mem v hu)
    have hmore := @ih false (before ++ [v]) w htail
    rw [List.append_assoc, List.singleton_append] at hmore
    simp only [JsonValue.valuesToChars, JsonValue.separate, List.append_assoc,
      List.cons_append] at hcomma hmore ⊢
    exact hcomma.trans hmore

theorem reads_array {values : List JsonValue} (h : ∀ v ∈ values, Reads v) :
    Reads (.array values) := by
  intro mayEnd stack
  refine ⟨_, .after _, ?_⟩
  rw [JsonValue.toChars, List.cons_append, run_cons, step_value (by decide) (by decide)]
  cases values with
  | nil => rfl
  | cons v values => exact run_values h

/-- The text of a field, and a comma or brace after it. -/
theorem run_field (h : Reads v) (mayEnd : Bool) (before : List (String × JsonValue)) (key : String)
    (stack : List Frame) (hdigit : digit? c = none) (hblank : isBlank c = false)
    (rest : List Char) :
    run (.key mayEnd, .object before :: stack)
      ((JsonValue.quote key ++ ':' :: v.toChars) ++ c :: rest) =
        (afterValue? v c (.field before key :: stack)).bind (run · rest) := by
  obtain ⟨m, hm, hv⟩ := h false (.field before key :: stack)
  have hsplit : (JsonValue.quote key ++ ':' :: v.toChars) ++ c :: rest =
      (JsonValue.quote key ++ [':']) ++ (v.toChars ++ c :: rest) := by
    simp only [List.append_assoc, List.cons_append, List.nil_append]
  rw [hsplit, run_append, run_key, Option.bind_some]
  exact run_append_of_completes hm hv hdigit hblank rest

/-- Some fields with commas between them, and the brace in the end. -/
theorem run_fields {mayEnd : Bool} {before : List (String × JsonValue)} {stack : List Frame}
    {e : String × JsonValue} {fields : List (String × JsonValue)}
    (h : ∀ e' ∈ e :: fields, Reads e'.2) :
    run (.key mayEnd, .object before :: stack)
      (JsonValue.separate (JsonValue.fieldsToChars (e :: fields)) ++ ['\x7d']) =
        some (.after (.object (before ++ e :: fields)), stack) := by
  induction fields generalizing mayEnd before e with
  | nil =>
    exact run_field (h e List.mem_cons_self) mayEnd before e.1 stack (by decide) (by decide) []
  | cons e' fields ih =>
    have hcomma := run_field (c := ',') (h e List.mem_cons_self) mayEnd before e.1 stack
      (by decide) (by decide)
      (JsonValue.separate (JsonValue.fieldsToChars (e' :: fields)) ++ ['\x7d'])
    have htail : ∀ u ∈ e' :: fields, Reads u.2 := fun u hu => h u (List.mem_cons_of_mem e hu)
    have hmore := @ih false (before ++ [e]) e' htail
    rw [List.append_assoc, List.singleton_append] at hmore
    simp only [JsonValue.fieldsToChars, JsonValue.separate, List.append_assoc,
      List.cons_append] at hcomma hmore ⊢
    exact hcomma.trans hmore

theorem reads_object {fields : List (String × JsonValue)} (h : ∀ e ∈ fields, Reads e.2) :
    Reads (.object fields) := by
  intro mayEnd stack
  refine ⟨_, .after _, ?_⟩
  rw [JsonValue.toChars, List.cons_append, run_cons, step_value (by decide) (by decide)]
  cases fields with
  | nil => rfl
  | cons e fields => exact run_fields h

end JsonReader

namespace JsonValue

/-- What holds of a value if it holds of its parts holds of all values. -/
theorem of_parts {P : JsonValue → Prop} (hstring : ∀ s, P (.string s)) (hnumber : ∀ n, P (.number n))
    (harray : ∀ values, (∀ v ∈ values, P v) → P (.array values))
    (hobject : ∀ fields, (∀ e ∈ fields, P e.2) → P (.object fields)) (v : JsonValue) : P v :=
  @JsonValue.rec P (fun values => ∀ v ∈ values, P v) (fun fields => ∀ e ∈ fields, P e.2)
    (fun e => P e.2) hstring hnumber harray hobject
    (List.forall_mem_nil _) (fun _ _ hv hvalues => List.forall_mem_cons.2 ⟨hv, hvalues⟩)
    (List.forall_mem_nil _) (fun _ _ he hfields => List.forall_mem_cons.2 ⟨he, hfields⟩)
    (fun _ _ hv => hv) v

/-- The text of a value is read back as the value. -/
theorem ofText?_text (v : JsonValue) : ofText? v.text = some v := by
  have hreads : JsonReader.Reads v :=
    of_parts JsonReader.reads_string JsonReader.reads_number
      (fun _ => JsonReader.reads_array) (fun _ => JsonReader.reads_object) v
  obtain ⟨m, hm, hv⟩ := hreads false []
  rw [ofText?, text, String.toList_ofList, hv, Option.bind_some, hm.finish?_eq]

/-! ## Lines -/

/-- None of the characters is a control character, so none breaks a line. -/
def Plain (cs : List Char) : Prop := ∀ c ∈ cs, 0x20 ≤ c.toNat

instance (cs : List Char) : Decidable (Plain cs) :=
  List.decidableBAll (fun c : Char => 0x20 ≤ c.toNat) cs

theorem plain_digitChar {d : Nat} (h : d < 16) : 0x20 ≤ (Nat.digitChar d).toNat := by
  have hall : ∀ d < 16, 0x20 ≤ (Nat.digitChar d).toNat := by decide
  exact hall d h

theorem plain_escape (c : Char) : Plain (escape c) := by
  unfold escape
  split
  · decide
  · decide
  · decide
  · decide
  · decide
  · decide
  · decide
  split
  · next hcontrol =>
    have hhigh := plain_digitChar (show c.toNat / 16 < 16 by omega)
    have hlow := plain_digitChar (show c.toNat % 16 < 16 by omega)
    simp [Plain, hhigh, hlow]
  · next hplain =>
    simp [Plain]
    omega

theorem plain_quote (s : String) : Plain (quote s) := by
  intro c hc
  simp only [quote, List.cons_append, List.mem_cons, List.mem_append, List.mem_flatMap,
    List.not_mem_nil, or_false] at hc
  obtain rfl | ⟨c', _, hc'⟩ | rfl := hc
  · decide
  · exact plain_escape c' c hc'
  · decide

theorem plain_separate {l : List (List Char)} (h : ∀ cs ∈ l, Plain cs) : Plain (separate l) := by
  induction l with
  | nil => exact List.forall_mem_nil _
  | cons cs rest ih =>
    have hcs : Plain cs := h cs List.mem_cons_self
    have hrest : Plain (separate rest) := ih fun cs' hcs' => h cs' (List.mem_cons_of_mem cs hcs')
    cases rest with
    | nil => exact hcs
    | cons cs' rest =>
      rw [separate]
      · exact List.forall_mem_append.2 ⟨hcs, List.forall_mem_cons.2 ⟨by decide, hrest⟩⟩
      · exact List.cons_ne_nil cs' rest

/-- Some parts between brackets or braces. -/
theorem plain_enclosed {first last : Char} {l : List (List Char)} (hfirst : Plain [first])
    (hlast : Plain [last]) (h : ∀ cs ∈ l, Plain cs) : Plain (first :: separate l ++ [last]) :=
  List.forall_mem_append.2
    ⟨List.forall_mem_append.2 ⟨hfirst, plain_separate h⟩, hlast⟩

theorem valuesToChars_eq_map (values : List JsonValue) :
    valuesToChars values = values.map toChars := by
  induction values with
  | nil => rfl
  | cons v values ih => rw [valuesToChars, ih, List.map_cons]

theorem fieldsToChars_eq_map (fields : List (String × JsonValue)) :
    fieldsToChars fields = fields.map fun e => quote e.1 ++ ':' :: e.2.toChars := by
  induction fields with
  | nil => rfl
  | cons e fields ih => rw [fieldsToChars, ih, List.map_cons]

/-- The text of a value has no control characters. -/
theorem plain_toChars (v : JsonValue) : Plain v.toChars := by
  refine of_parts (P := fun v => Plain v.toChars) ?_ ?_ ?_ ?_ v
  · intro s
    rw [toChars]
    exact plain_quote s
  · intro n c hc
    rw [toChars, Nat.toString_eq_ofList_toDigits, String.toList_ofList] at hc
    have hdigit := Nat.isDigit_of_mem_toDigits (show 0 < 10 by decide) (by decide) hc
    have hle : '0'.toNat ≤ c.toNat := (Char.isDigit_iff_toNat.1 hdigit).1
    exact le_trans (by decide) hle
  · intro values ih
    rw [toChars, valuesToChars_eq_map]
    exact plain_enclosed (by decide) (by decide) (List.forall_mem_map.2 ih)
  · intro fields ih
    rw [toChars, fieldsToChars_eq_map]
    refine plain_enclosed (by decide) (by decide) (List.forall_mem_map.2 ?_)
    intro e he
    exact List.forall_mem_append.2
      ⟨plain_quote e.1, List.forall_mem_cons.2 ⟨by decide, ih e he⟩⟩

end JsonValue

end DoubleEntry
