import Mathlib.Data.List.TakeWhile
import HiceDt.Lib.Text

/-!
# JSON texts

JSON values, the grammar of JSON texts, a scanner and a parser, and the compact text of a
value. A number is kept as its literal; strings with escaped surrogates are not supported by
the scanner.

Results:

* `parse_text`: the parser reads the value of its text.
* `isText_text`: the text of a value is in the grammar.
* `isNumber_decimalInt`: printed integers are number literals.
-/

namespace HiceDt.Json

/-- A JSON value. -/
inductive Value where
  | null
  | bool (b : Bool)
  | number (literal : List Char)
  | string (s : List Char)
  | array (items : List Value)
  | object (fields : List (List Char × Value))

/-! ## Characters and literals -/

/-- White space between tokens. -/
def isBlank (c : Char) : Bool := c ∈ [' ', '\t', '\n', '\r']

/-- `e` or `E`, an optional sign and digits, or nothing. -/
def isExponent : List Char → Bool
  | [] => true
  | c :: r =>
    let digits := match r with
      | '+' :: r => r
      | '-' :: r => r
      | r => r
    (c = 'e' || c = 'E') && !digits.isEmpty && digits.all Char.isDigit

/-- A point and digits, or nothing, and the exponent. -/
def isFraction : List Char → Bool
  | '.' :: r => !(r.takeWhile Char.isDigit).isEmpty && isExponent (r.dropWhile Char.isDigit)
  | r => isExponent r

/-- A number literal without its sign; the first digit is 0 only if it is the only one. -/
def isUnsignedNumber (s : List Char) : Bool :=
  let digits := s.takeWhile Char.isDigit
  !digits.isEmpty && (digits.head? != some '0' || digits.length = 1) &&
    isFraction (s.dropWhile Char.isDigit)

/-- A number literal. -/
def isNumber : List Char → Bool
  | '-' :: r => isUnsignedNumber r
  | r => isUnsignedNumber r

/-- The character for the letter after a backslash. -/
def escaped : Char → Option Char
  | '"' => some '"'
  | '\\' => some '\\'
  | '/' => some '/'
  | 'b' => some '\x08'
  | 'f' => some '\x0c'
  | 'n' => some '\n'
  | 'r' => some '\r'
  | 't' => some '\t'
  | _ => none

/-- The value of a hexadecimal digit. -/
def hexValue (c : Char) : Option ℕ :=
  if c.isDigit then some (c.toNat - '0'.toNat)
  else if 'a' ≤ c ∧ c ≤ 'f' then some (c.toNat - 'a'.toNat + 10)
  else if 'A' ≤ c ∧ c ≤ 'F' then some (c.toNat - 'A'.toNat + 10)
  else none

/-- A character that stands for itself in a string. -/
def IsPlain (c : Char) : Prop := c ≠ '"' ∧ c ≠ '\\' ∧ 0x20 ≤ c.toNat

/-! ## The grammar -/

/-- The text between the quotes of a string. -/
inductive IsBody : List Char → Prop
  | nil : IsBody []
  | plain {c : Char} {s : List Char} : IsPlain c → IsBody s → IsBody (c :: s)
  | escape {c : Char} {s : List Char} : (escaped c).isSome = true → IsBody s →
    IsBody ('\\' :: c :: s)
  | unicode {c₁ c₂ c₃ c₄ : Char} {s : List Char} : (hexValue c₁).isSome = true →
      (hexValue c₂).isSome = true → (hexValue c₃).isSome = true → (hexValue c₄).isSome = true →
      IsBody s → IsBody ('\\' :: 'u' :: c₁ :: c₂ :: c₃ :: c₄ :: s)

/-- White space. -/
def IsBlank (s : List Char) : Prop := ∀ c ∈ s, isBlank c = true

mutual

/-- The texts of values. -/
inductive IsValue : List Char → Prop
  | null : IsValue "null".toList
  | true : IsValue "true".toList
  | false : IsValue "false".toList
  | number {s : List Char} : isNumber s = Bool.true → IsValue s
  | string {s : List Char} : IsBody s → IsValue ('"' :: (s ++ ['"']))
  | emptyArray {w : List Char} : IsBlank w → IsValue ('[' :: (w ++ [']']))
  | array {s : List Char} : IsItems s → IsValue ('[' :: (s ++ [']']))
  | emptyObject {w : List Char} : IsBlank w → IsValue ('\x7b' :: (w ++ ['\x7d']))
  | object {s : List Char} : IsFields s → IsValue ('\x7b' :: (s ++ ['\x7d']))

/-- Values with commas between them. -/
inductive IsItems : List Char → Prop
  | last {w s w' : List Char} : IsBlank w → IsValue s → IsBlank w' → IsItems (w ++ (s ++ w'))
  | more {w s w' rest : List Char} : IsBlank w → IsValue s → IsBlank w' → IsItems rest →
      IsItems (w ++ (s ++ (w' ++ ',' :: rest)))

/-- Keys and values with commas between them. -/
inductive IsFields : List Char → Prop
  | last {w key w₁ w₂ s w' : List Char} : IsBlank w → IsBody key → IsBlank w₁ → IsBlank w₂ →
      IsValue s → IsBlank w' →
      IsFields (w ++ '"' :: (key ++ '"' :: (w₁ ++ ':' :: (w₂ ++ (s ++ w')))))
  | more {w key w₁ w₂ s w' rest : List Char} : IsBlank w → IsBody key → IsBlank w₁ → IsBlank w₂ →
      IsValue s → IsBlank w' → IsFields rest →
      IsFields (w ++ '"' :: (key ++ '"' :: (w₁ ++ ':' :: (w₂ ++ (s ++ (w' ++ ',' :: rest))))))

end

/-- A JSON text. -/
def IsText (s : List Char) : Prop :=
  ∃ w v w', IsBlank w ∧ IsValue v ∧ IsBlank w' ∧ s = w ++ (v ++ w')

/-! ## Scanning -/

/-- The tokens of a JSON text. -/
inductive Token where
  | openBrace
  | closeBrace
  | openBracket
  | closeBracket
  | colon
  | comma
  | null
  | bool (b : Bool)
  | number (literal : List Char)
  | string (s : List Char)
deriving DecidableEq, Repr

/-- The tokens that are a single character. -/
def punctuation : Char → Option Token
  | '\x7b' => some .openBrace
  | '\x7d' => some .closeBrace
  | '[' => some .openBracket
  | ']' => some .closeBracket
  | ':' => some .colon
  | ',' => some .comma
  | _ => none

/-- The characters of literals. -/
def isWordChar (c : Char) : Bool := c.isAlphanum || c ∈ ['+', '-', '.']

/-- The token of a literal. -/
def wordToken (w : List Char) : Option Token :=
  if w = "null".toList then some .null
  else if w = "true".toList then some (.bool true)
  else if w = "false".toList then some (.bool false)
  else if isNumber w then some (.number w)
  else none

/-- What the scanner is reading, and what it has read of it. -/
inductive Scan where
  | idle
  | word (w : List Char)
  | string (s : List Char)
  | escape (s : List Char)
  | unicode (s : List Char) (digits : List ℕ)

/-- A character outside of literals and strings. -/
def start (c : Char) : Option (List Token × Scan) :=
  if isBlank c then some ([], .idle)
  else match punctuation c with
    | some t => some ([t], .idle)
    | none =>
      if c = '"' then some ([], .string [])
      else if isWordChar c then some ([], .word [c])
      else none

/-- The character with four hexadecimal digits. -/
def unicodeChar (digits : List ℕ) : Option Char :=
  let n := digits.foldl (fun a d => 16 * a + d) 0
  if n.isValidChar then some (Char.ofNat n) else none

/-- The tokens of a text. -/
def scan : Scan → List Char → Option (List Token)
  | .idle, [] => some []
  | .word w, [] => (wordToken w).map fun t => [t]
  | _, [] => none
  | .idle, c :: cs => do
    let (ts, state) ← start c
    let rest ← scan state cs
    return ts ++ rest
  | .word w, c :: cs =>
    if isWordChar c then scan (.word (w ++ [c])) cs
    else do
      let t ← wordToken w
      let (ts, state) ← start c
      let rest ← scan state cs
      return t :: ts ++ rest
  | .string s, c :: cs =>
    if c = '"' then do
      let rest ← scan .idle cs
      return .string s :: rest
    else if c = '\\' then scan (.escape s) cs
    else if c.toNat < 0x20 then none
    else scan (.string (s ++ [c])) cs
  | .escape s, c :: cs =>
    if c = 'u' then scan (.unicode s []) cs
    else do
      let e ← escaped c
      scan (.string (s ++ [e])) cs
  | .unicode s digits, c :: cs => do
    let d ← hexValue c
    if digits.length = 3 then do
      let e ← unicodeChar (digits ++ [d])
      scan (.string (s ++ [e])) cs
    else scan (.unicode s (digits ++ [d])) cs

/-! ## Parsing -/

mutual

/-- A value and the tokens after it. -/
def parseValue : ℕ → List Token → Option (Value × List Token)
  | fuel + 1, .openBracket :: ts =>
    match ts with
    | .closeBracket :: ts => some (.array [], ts)
    | ts => (parseItems fuel ts).map fun x => (.array x.1, x.2)
  | fuel + 1, .openBrace :: ts =>
    match ts with
    | .closeBrace :: ts => some (.object [], ts)
    | ts => (parseFields fuel ts).map fun x => (.object x.1, x.2)
  | _ + 1, .null :: ts => some (.null, ts)
  | _ + 1, .bool b :: ts => some (.bool b, ts)
  | _ + 1, .number literal :: ts => some (.number literal, ts)
  | _ + 1, .string s :: ts => some (.string s, ts)
  | _, _ => none

/-- The items of an array up to its end. -/
def parseItems : ℕ → List Token → Option (List Value × List Token)
  | fuel + 1, ts => do
    let (v, ts) ← parseValue fuel ts
    match ts with
    | .closeBracket :: ts => return ([v], ts)
    | .comma :: ts => do
      let (vs, ts) ← parseItems fuel ts
      return (v :: vs, ts)
    | _ => none
  | 0, _ => none

/-- The fields of an object up to its end. -/
def parseFields : ℕ → List Token → Option (List (List Char × Value) × List Token)
  | fuel + 1, .string key :: .colon :: ts => do
    let (v, ts) ← parseValue fuel ts
    match ts with
    | .closeBrace :: ts => return ([(key, v)], ts)
    | .comma :: ts => do
      let (fields, ts) ← parseFields fuel ts
      return ((key, v) :: fields, ts)
    | _ => none
  | _, _ => none

end

/-- The value of a JSON text. -/
def parse (s : List Char) : Option Value := do
  let ts ← scan .idle s
  match parseValue (2 * ts.length) ts with
  | some (v, []) => some v
  | _ => none

/-! ## The text of a value -/

mutual

/-- The text of a value without white space and escapes. -/
def Value.text : Value → List Char
  | .null => "null".toList
  | .bool b => (if b then "true" else "false").toList
  | .number literal => literal
  | .string s => '"' :: (s ++ ['"'])
  | .array items => '[' :: (itemsText items ++ [']'])
  | .object fields => '\x7b' :: (fieldsText fields ++ ['\x7d'])

def itemsText : List Value → List Char
  | [] => []
  | [v] => v.text
  | v :: vs => v.text ++ ',' :: itemsText vs

def fieldsText : List (List Char × Value) → List Char
  | [] => []
  | [(key, v)] => '"' :: (key ++ '"' :: ':' :: v.text)
  | (key, v) :: fields => '"' :: (key ++ '"' :: ':' :: (v.text ++ ',' :: fieldsText fields))

end

mutual

/-- The tokens of a value. -/
def Value.tokens : Value → List Token
  | .null => [.null]
  | .bool b => [.bool b]
  | .number literal => [.number literal]
  | .string s => [.string s]
  | .array items => .openBracket :: (itemsTokens items ++ [.closeBracket])
  | .object fields => .openBrace :: (fieldsTokens fields ++ [.closeBrace])

def itemsTokens : List Value → List Token
  | [] => []
  | [v] => v.tokens
  | v :: vs => v.tokens ++ .comma :: itemsTokens vs

def fieldsTokens : List (List Char × Value) → List Token
  | [] => []
  | [(key, v)] => .string key :: .colon :: v.tokens
  | (key, v) :: fields => .string key :: .colon :: (v.tokens ++ .comma :: fieldsTokens fields)

end

mutual

/-- Numbers are literals, and strings and keys need no escapes. -/
def Value.Simple : Value → Prop
  | .null | .bool _ => True
  | .number literal => isNumber literal = true
  | .string s => ∀ c ∈ s, IsPlain c
  | .array items => itemsSimple items
  | .object fields => fieldsSimple fields

def itemsSimple : List Value → Prop
  | [] => True
  | v :: vs => v.Simple ∧ itemsSimple vs

def fieldsSimple : List (List Char × Value) → Prop
  | [] => True
  | (key, v) :: fields => (∀ c ∈ key, IsPlain c) ∧ v.Simple ∧ fieldsSimple fields

end

/-! ## Literals -/

variable {c : Char} {s cs w : List Char} {t : Token}

theorem isWordChar_of_isDigit (h : c.isDigit = true) : isWordChar c = true := by
  rw [isWordChar, Char.isAlphanum, h, Bool.or_true, Bool.true_or]

theorem wordChars_exponent (h : isExponent s = true) : ∀ c ∈ s, isWordChar c = true := by
  unfold isExponent at h
  split at h
  · simp
  · rename_i e r
    simp only [Bool.and_eq_true, Bool.or_eq_true, decide_eq_true_eq, List.all_eq_true] at h
    obtain ⟨⟨he, -⟩, hdigits⟩ := h
    have hfirst : isWordChar e = true := by
      rcases he with rfl | rfl
      · decide
      · decide
    intro c hc
    rcases List.mem_cons.mp hc with rfl | hc
    · exact hfirst
    · split at hdigits
      · rcases List.mem_cons.mp hc with rfl | hc
        · decide
        · exact isWordChar_of_isDigit (hdigits c hc)
      · rcases List.mem_cons.mp hc with rfl | hc
        · decide
        · exact isWordChar_of_isDigit (hdigits c hc)
      · exact isWordChar_of_isDigit (hdigits c hc)

/-- Digits and what follows them. -/
theorem wordChars_digits (h : ∀ c ∈ s.dropWhile Char.isDigit, isWordChar c = true) :
    ∀ c ∈ s, isWordChar c = true := by
  intro c hc
  rw [← List.takeWhile_append_dropWhile (p := Char.isDigit) (l := s)] at hc
  rcases List.mem_append.mp hc with hc | hc
  · exact isWordChar_of_isDigit (List.mem_takeWhile_imp hc)
  · exact h c hc

theorem wordChars_fraction (h : isFraction s = true) : ∀ c ∈ s, isWordChar c = true := by
  unfold isFraction at h
  split at h
  · rw [Bool.and_eq_true] at h
    intro c hc
    rcases List.mem_cons.mp hc with rfl | hc
    · decide
    · exact wordChars_digits (wordChars_exponent h.2) c hc
  · exact wordChars_exponent h

theorem wordChars_number (h : isNumber s = true) : ∀ c ∈ s, isWordChar c = true := by
  have hunsigned : ∀ r, isUnsignedNumber r = true → ∀ c ∈ r, isWordChar c = true := by
    intro r hr
    unfold isUnsignedNumber at hr
    rw [Bool.and_eq_true] at hr
    exact wordChars_digits (wordChars_fraction hr.2)
  unfold isNumber at h
  split at h
  · intro c hc
    rcases List.mem_cons.mp hc with rfl | hc
    · decide
    · exact hunsigned _ h c hc
  · exact hunsigned _ h

theorem wordToken_number (h : isNumber s = true) : wordToken s = some (.number s) := by
  have hne : ∀ w, isNumber w = false → s ≠ w := by
    rintro w hw rfl
    rw [h] at hw
    cases hw
  rw [wordToken, if_neg (hne _ (by decide)), if_neg (hne _ (by decide)), if_neg (hne _ (by decide)),
    if_pos h]

theorem isNumber_ne_nil (h : isNumber s = true) : s ≠ [] := by
  rintro rfl
  revert h
  decide

/-! ## The scanner reads the tokens -/

/-- A literal ends where the text goes on. -/
def Stops (cs : List Char) : Prop := ∀ c ∈ cs.head?, isWordChar c = false

theorem start_of_isWordChar (h : isWordChar c = true) : start c = some ([], .word [c]) := by
  have hne : ∀ d, isWordChar d = false → c ≠ d := by
    rintro d hd rfl
    rw [h] at hd
    cases hd
  have hblank : isBlank c = false := by
    rw [isBlank, decide_eq_false_iff_not]
    intro hc
    simp only [List.mem_cons, List.not_mem_nil, or_false] at hc
    rcases hc with hc | hc | hc | hc
    · exact hne _ (by decide) hc
    · exact hne _ (by decide) hc
    · exact hne _ (by decide) hc
    · exact hne _ (by decide) hc
  have hpunctuation : punctuation c = none := by
    unfold punctuation
    split
    · exact absurd rfl (hne _ (by decide))
    · exact absurd rfl (hne _ (by decide))
    · exact absurd rfl (hne _ (by decide))
    · exact absurd rfl (hne _ (by decide))
    · exact absurd rfl (hne _ (by decide))
    · exact absurd rfl (hne _ (by decide))
    · rfl
  rw [start, hblank, hpunctuation, if_neg Bool.false_ne_true]
  dsimp only
  rw [if_neg (hne _ (by decide)), if_pos h]

theorem scan_start (h : start c = some ([t], .idle)) :
    scan .idle (c :: cs) = (scan .idle cs).map (t :: ·) := by
  rw [scan, h]
  cases hscan : scan .idle cs with
  | none => simp [hscan]
  | some ts => simp [hscan]

theorem scan_word_append : ∀ {u : List Char}, (∀ c ∈ w, isWordChar c = true) →
    scan (.word u) (w ++ cs) = scan (.word (u ++ w)) cs := by
  induction w with
  | nil =>
    intro u _
    rw [List.nil_append, List.append_nil]
  | cons c w ih =>
    intro u h
    rw [List.cons_append, scan, if_pos (h c List.mem_cons_self),
      ih fun d hd => h d (List.mem_cons_of_mem _ hd), List.append_assoc, List.singleton_append]

/-- A literal is one token. -/
theorem scan_word (hne : w ≠ []) (hw : ∀ c ∈ w, isWordChar c = true) (ht : wordToken w = some t)
    (hstop : Stops cs) : scan .idle (w ++ cs) = (scan .idle cs).map (t :: ·) := by
  obtain ⟨c, w, rfl⟩ := List.exists_cons_of_ne_nil hne
  have hread : scan .idle (c :: w ++ cs) = scan (.word (c :: w)) cs := by
    rw [List.cons_append, scan, start_of_isWordChar (hw c List.mem_cons_self)]
    simp only [Option.bind_eq_bind, Option.bind_some, List.nil_append]
    rw [scan_word_append fun d hd => hw d (List.mem_cons_of_mem _ hd), List.singleton_append]
    exact Option.bind_fun_some _
  rw [hread]
  cases cs with
  | nil => simp only [scan, ht, Option.map_some]
  | cons d cs =>
    have hd : isWordChar d = false := hstop d rfl
    simp only [scan, hd, ht]
    cases start d with
    | none => rfl
    | some x =>
      obtain ⟨ts, state⟩ := x
      cases hscan : scan state cs with
      | none => simp [hscan]
      | some rest => simp [hscan]

theorem scan_body : ∀ {u : List Char}, (∀ c ∈ s, IsPlain c) →
    scan (.string u) (s ++ '"' :: cs) = (scan .idle cs).map (.string (u ++ s) :: ·) := by
  induction s with
  | nil =>
    intro u _
    rw [List.nil_append, scan, if_pos rfl, List.append_nil]
    cases hscan : scan .idle cs with
    | none => rfl
    | some ts => rfl
  | cons c s ih =>
    intro u h
    obtain ⟨hquote, hslash, hcontrol⟩ := h c List.mem_cons_self
    rw [List.cons_append, scan, if_neg hquote, if_neg hslash, if_neg (by omega),
      ih fun d hd => h d (List.mem_cons_of_mem _ hd), List.append_assoc, List.singleton_append]

/-- A string is one token. -/
theorem scan_string (h : ∀ c ∈ s, IsPlain c) :
    scan .idle ('"' :: (s ++ '"' :: cs)) = (scan .idle cs).map (.string s :: ·) := by
  have hstart : start '"' = some ([], .string []) := rfl
  rw [scan, hstart]
  simp only [Option.bind_eq_bind, Option.bind_some, List.nil_append]
  rw [scan_body h, List.nil_append]
  exact Option.bind_fun_some _

theorem stops_of_head {d : Char} (h : isWordChar d = false) : Stops (d :: cs) := by
  intro c hc
  rw [← Option.some.inj hc]
  exact h

theorem itemsText_cons (v v' : Value) (items : List Value) :
    itemsText (v :: v' :: items) = v.text ++ ',' :: itemsText (v' :: items) := rfl

theorem fieldsText_cons (key : List Char) (v : Value) (field : List Char × Value)
    (fields : List (List Char × Value)) : fieldsText ((key, v) :: field :: fields) =
      '"' :: (key ++ '"' :: ':' :: (v.text ++ ',' :: fieldsText (field :: fields))) := rfl

theorem itemsTokens_cons (v v' : Value) (items : List Value) :
    itemsTokens (v :: v' :: items) = v.tokens ++ .comma :: itemsTokens (v' :: items) := rfl

theorem fieldsTokens_cons (key : List Char) (v : Value) (field : List Char × Value)
    (fields : List (List Char × Value)) : fieldsTokens ((key, v) :: field :: fields) =
      .string key :: .colon :: (v.tokens ++ .comma :: fieldsTokens (field :: fields)) := rfl

mutual

theorem scan_text : ∀ v : Value, v.Simple → ∀ cs, Stops cs →
    scan .idle (v.text ++ cs) = (scan .idle cs).map (v.tokens ++ ·)
  | .null, _, cs, hstop => scan_word (by decide) (by decide) (by decide) hstop
  | .bool true, _, cs, hstop => scan_word (by decide) (by decide) (by decide) hstop
  | .bool false, _, cs, hstop => scan_word (by decide) (by decide) (by decide) hstop
  | .number literal, h, cs, hstop =>
    scan_word (isNumber_ne_nil h) (wordChars_number h) (wordToken_number h) hstop
  | .string s, h, cs, _ => by
    have hread := @scan_string s cs h
    rw [Value.text, List.cons_append, List.append_assoc]
    exact hread
  | .array items, h, cs, _ => by
    rw [Value.text, List.cons_append, List.append_assoc, List.singleton_append,
      scan_start (t := .openBracket) rfl, scan_items items h _ (stops_of_head (by decide)),
      scan_start (t := .closeBracket) rfl]
    cases scan .idle cs with
    | none => rfl
    | some ts => simp [Value.tokens]
  | .object fields, h, cs, _ => by
    rw [Value.text, List.cons_append, List.append_assoc, List.singleton_append,
      scan_start (t := .openBrace) rfl, scan_fields fields h _ (stops_of_head (by decide)),
      scan_start (t := .closeBrace) rfl]
    cases scan .idle cs with
    | none => rfl
    | some ts => simp [Value.tokens]

theorem scan_items : ∀ items : List Value, itemsSimple items → ∀ cs, Stops cs →
    scan .idle (itemsText items ++ cs) = (scan .idle cs).map (itemsTokens items ++ ·)
  | [], _, cs, _ => by
    rw [itemsText, List.nil_append]
    exact Option.map_id'.symm
  | [v], h, cs, hstop => scan_text v h.1 cs hstop
  | v :: v' :: items, h, cs, hstop => by
    rw [itemsText_cons, List.append_assoc, List.cons_append,
      scan_text v h.1 _ (stops_of_head (by decide)),
      scan_start (t := .comma) rfl, scan_items (v' :: items) h.2 cs hstop]
    cases scan .idle cs with
    | none => rfl
    | some ts => simp [itemsTokens]

theorem scan_fields : ∀ fields : List (List Char × Value), fieldsSimple fields → ∀ cs, Stops cs →
    scan .idle (fieldsText fields ++ cs) = (scan .idle cs).map (fieldsTokens fields ++ ·)
  | [], _, cs, _ => by
    rw [fieldsText, List.nil_append]
    exact Option.map_id'.symm
  | [(key, v)], h, cs, hstop => by
    rw [fieldsText, List.cons_append, List.append_assoc, List.cons_append, List.cons_append,
      scan_string h.1, scan_start (t := .colon) rfl, scan_text v h.2.1 cs hstop]
    cases scan .idle cs with
    | none => rfl
    | some ts => simp [fieldsTokens]
  | (key, v) :: field :: fields, h, cs, hstop => by
    rw [fieldsText_cons, List.cons_append, List.append_assoc, List.cons_append, List.cons_append,
      List.append_assoc, List.cons_append, scan_string h.1, scan_start (t := .colon) rfl,
      scan_text v h.2.1 _ (stops_of_head (by decide)), scan_start (t := .comma) rfl,
      scan_fields (field :: fields) h.2.2 cs hstop]
    cases scan .idle cs with
    | none => rfl
    | some ts => simp [fieldsTokens]

end

/-! ## The parser reads the value -/

theorem tokens_head (v : Value) : ∃ t ts, v.tokens = t :: ts ∧ t ≠ .closeBracket := by
  cases v with
  | null => exact ⟨_, _, rfl, by decide⟩
  | bool b => exact ⟨_, _, rfl, fun h => by cases h⟩
  | number literal => exact ⟨_, _, rfl, fun h => by cases h⟩
  | string s => exact ⟨_, _, rfl, fun h => by cases h⟩
  | array items => exact ⟨_, _, rfl, by decide⟩
  | object fields => exact ⟨_, _, rfl, by decide⟩

theorem itemsTokens_head (v : Value) (items : List Value) :
    ∃ t ts, itemsTokens (v :: items) = t :: ts ∧ t ≠ .closeBracket := by
  obtain ⟨t, ts, hts, hne⟩ := tokens_head v
  cases items with
  | nil => exact ⟨t, ts, hts, hne⟩
  | cons v' items => exact ⟨t, ts ++ .comma ::
    itemsTokens (v' :: items), by rw [itemsTokens_cons, hts]; rfl, hne⟩

mutual

theorem parseValue_tokens : ∀ (v : Value) (fuel : ℕ) (rest : List Token),
    2 * v.tokens.length ≤ fuel →
    parseValue fuel (v.tokens ++ rest) = some (v, rest)
  | .null, fuel + 1, rest, _ => rfl
  | .bool b, fuel + 1, rest, _ => rfl
  | .number literal, fuel + 1, rest, _ => rfl
  | .string s, fuel + 1, rest, _ => rfl
  | .array [], fuel + 1, rest, _ => rfl
  | .object [], fuel + 1, rest, _ => rfl
  | .array (v :: items), fuel + 1, rest, h => by
    rw [Value.tokens, List.length_cons, List.length_append, List.length_singleton] at h
    have hitems := parseItems_tokens v items fuel rest (by omega)
    obtain ⟨t, ts, hts, hne⟩ := itemsTokens_head v items
    rw [Value.tokens, List.cons_append, List.append_assoc, List.singleton_append]
    rw [hts, List.cons_append] at hitems ⊢
    rw [parseValue]
    · rw [hitems]
      rfl
    · exact fun ts' h => hne (List.cons.inj h).1
  | .object ((key, v) :: fields), fuel + 1, rest, h => by
    rw [Value.tokens, List.length_cons, List.length_append, List.length_singleton] at h
    have hfields := parseFields_tokens key v fields fuel rest (by omega)
    rw [Value.tokens, List.cons_append, List.append_assoc, List.singleton_append, parseValue,
      hfields]
    · rfl
    · intro ts h
      cases fields with
      | nil => cases h
      | cons field fields => cases h
  | v, 0, rest, h => by
    obtain ⟨t, ts, hts, -⟩ := tokens_head v
    rw [hts, List.length_cons] at h
    omega

theorem parseItems_tokens : ∀ (v : Value) (items : List Value) (fuel : ℕ) (rest : List Token),
    2 * (itemsTokens (v :: items)).length < fuel →
    parseItems fuel (itemsTokens (v :: items) ++ .closeBracket :: rest) = some (v :: items, rest)
  | v, [], fuel + 1, rest, h => by
    rw [itemsTokens] at h ⊢
    rw [parseItems, parseValue_tokens v fuel _ (by omega)]
    rfl
  | v, v' :: items, fuel + 1, rest, h => by
    rw [itemsTokens_cons, List.length_append, List.length_cons] at h
    rw [itemsTokens_cons, List.append_assoc, List.cons_append, parseItems,
      parseValue_tokens v fuel _ (by omega)]
    simp only [Option.bind_eq_bind, Option.bind_some]
    rw [parseItems_tokens v' items fuel rest (by omega)]
    rfl

theorem parseFields_tokens : ∀ (key : List Char) (v : Value) (fields : List (List Char × Value))
    (fuel : ℕ)
    (rest : List Token), 2 * (fieldsTokens ((key, v) :: fields)).length < fuel →
    parseFields fuel (fieldsTokens ((key, v) :: fields) ++ .closeBrace :: rest) =
      some ((key, v) :: fields, rest)
  | key, v, [], fuel + 1, rest, h => by
    rw [fieldsTokens, List.length_cons, List.length_cons] at h
    rw [fieldsTokens, List.cons_append, List.cons_append, parseFields,
      parseValue_tokens v fuel _ (by omega)]
    rfl
  | key, v, (key', v') :: fields, fuel + 1, rest, h => by
    rw [fieldsTokens_cons, List.length_cons, List.length_cons, List.length_append,
      List.length_cons] at h
    rw [fieldsTokens_cons, List.cons_append, List.cons_append, List.append_assoc, List.cons_append,
      parseFields, parseValue_tokens v fuel _ (by omega)]
    simp only [Option.bind_eq_bind, Option.bind_some]
    rw [parseFields_tokens key' v' fields fuel rest (by omega)]
    rfl

end

/-- The parser reads the value of its text. -/
theorem parse_text {v : Value} (h : v.Simple) : parse v.text = some v := by
  have hscan := scan_text v h [] fun c hc => by cases hc
  have hparse := parseValue_tokens v (2 * v.tokens.length) [] (le_refl _)
  rw [List.append_nil] at hscan hparse
  rw [parse, hscan, scan, Option.map_some, List.append_nil, Option.bind_eq_bind, Option.bind_some,
    hparse]

/-! ## The text is in the grammar -/

theorem isBlank_nil : IsBlank [] := fun c hc => by cases hc

theorem isBody_of_plain (h : ∀ c ∈ s, IsPlain c) : IsBody s := by
  induction s with
  | nil => exact .nil
  | cons c s ih =>
    exact .plain (h c List.mem_cons_self) (ih fun d hd => h d (List.mem_cons_of_mem _ hd))

theorem isItems_last (h : IsValue s) : IsItems s := by
  have hlast := IsItems.last isBlank_nil h isBlank_nil
  rwa [List.nil_append, List.append_nil] at hlast

theorem isFields_last {key : List Char} (hkey : IsBody key) (h : IsValue s) :
    IsFields ('"' :: (key ++ '"' :: ':' :: s)) := by
  have hlast := IsFields.last isBlank_nil hkey isBlank_nil isBlank_nil h isBlank_nil
  rwa [List.nil_append, List.nil_append, List.nil_append, List.append_nil] at hlast

mutual

theorem isValue_text : ∀ v : Value, v.Simple → IsValue v.text
  | .null, _ => .null
  | .bool true, _ => .true
  | .bool false, _ => .false
  | .number _, h => .number h
  | .string _, h => .string (isBody_of_plain h)
  | .array [], _ => .emptyArray isBlank_nil
  | .object [], _ => .emptyObject isBlank_nil
  | .array (v :: items), h => .array (isItems_text (v :: items) (List.cons_ne_nil v items) h)
  | .object (field :: fields), h => .object (isFields_text (field :: fields)
    (List.cons_ne_nil field fields) h)

theorem isItems_text : ∀ items : List Value, items ≠ [] → itemsSimple items →
    IsItems (itemsText items)
  | [], hne, _ => absurd rfl hne
  | [v], _, h => isItems_last (isValue_text v h.1)
  | v :: v' :: items, _, h => .more isBlank_nil (isValue_text v h.1) isBlank_nil
    (isItems_text (v' :: items) (List.cons_ne_nil v' items) h.2)

theorem isFields_text : ∀ fields : List (List Char × Value), fields ≠ [] → fieldsSimple fields →
    IsFields (fieldsText fields)
  | [], hne, _ => absurd rfl hne
  | [(_, v)], _, h => isFields_last (isBody_of_plain h.1) (isValue_text v h.2.1)
  | (_, v) :: field :: fields, _, h => .more isBlank_nil (isBody_of_plain h.1) isBlank_nil
    isBlank_nil
    (isValue_text v h.2.1) isBlank_nil (isFields_text (field :: fields)
    (List.cons_ne_nil field fields) h.2.2)

end

/-- The text of a value is a JSON text. -/
theorem isText_text {v : Value} (h : v.Simple) : IsText v.text :=
  ⟨[], v.text, [], isBlank_nil, isValue_text v h,
  isBlank_nil, by rw [List.nil_append, List.append_nil]⟩

/-! ## Integers -/

/-- The first digit is 0 only if it is the only one. -/
theorem isUnsignedNumber_decimal (n : ℕ) : isUnsignedNumber (Text.decimal n) = true := by
  have hdigits : ∀ c ∈ Text.decimal n, c.isDigit = true := fun c hc =>
    Text.isDigit_of_mem_decimal hc
  have htake : (Text.decimal n).takeWhile Char.isDigit = Text.decimal n :=
    List.takeWhile_eq_self_iff.mpr hdigits
  have hdrop : (Text.decimal n).dropWhile Char.isDigit = [] := List.dropWhile_eq_nil_iff.mpr hdigits
  have hne : (Text.decimal n).isEmpty = false :=
    List.isEmpty_eq_false_iff.mpr (Text.decimal_ne_nil n)
  have hzero : ((Text.decimal n).head? != some '0' || decide ((Text.decimal n).length = 1)) =
      true := by
    unfold Text.decimal
    split_ifs with hn
    · rfl
    · have hnil : Nat.digits 10 n ≠ [] := Nat.digits_ne_nil_iff_ne_zero.mpr hn
      have hlast := Nat.getLast_digit_ne_zero 10 hn
      have hlt := Nat.digits_lt_base (by norm_num) (List.getLast_mem hnil)
      have hchar : ∀ d < 10, d ≠ 0 → Nat.digitChar d ≠ '0' := by decide
      rw [List.head?_reverse, List.getLast?_map, List.getLast?_eq_some_getLast hnil,
        Option.map_some]
      simp [hchar _ hlt hlast]
  rw [isUnsignedNumber, htake, hdrop, hne, hzero]
  rfl

/-- A printed integer is a number literal. -/
theorem isNumber_decimalInt (n : ℤ) : isNumber (Text.decimalInt n) = true := by
  cases n with
  | negSucc n => exact isUnsignedNumber_decimal (n + 1)
  | ofNat n =>
    obtain ⟨c, cs, hc, hdigit⟩ := Text.decimal_cons n
    have hminus : c ≠ '-' := Text.ne_of_isDigit hdigit rfl
    have hunsigned := isUnsignedNumber_decimal n
    rw [Text.decimalInt]
    rw [hc] at hunsigned ⊢
    unfold isNumber
    split
    · rename_i heq
      exact absurd (List.cons.inj heq).1 hminus
    · exact hunsigned

end HiceDt.Json
