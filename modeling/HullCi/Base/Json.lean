/-
**JSON texts, and rewriting characters inside their strings.**

A text is cut into tokens by a lexer that is a state machine, one character a step; the tokens are
read into a value by a machine with a stack of what is open. Strings are kept as UTF-16 units, so
that a character and its `\u` escape are the same unit, and numbers as they are written.

* `Lex.step` — what a character does to the lexer; a character that is in no token outside of strings
  is refused there, and after a backslash.
* `lexFrom_flatMap` — writing such characters as their `\u` escapes leaves the tokens as they are.
* `parse_flatMap` — so the text stays a text of the same value.
-/

import Mathlib.Data.List.Basic

namespace HullCi.Base

/-- A JSON value. -/
inductive Json where
  | null
  | bool (value : Bool)
  /-- a number, as it is written -/
  | number (text : List Char)
  | string (units : List ℕ)
  | array (items : List Json)
  | object (members : List (List ℕ × Json))

namespace Json

/-! ### Tokens -/

inductive Token where
  | beginArray
  | endArray
  | beginObject
  | endObject
  | colon
  | comma
  /-- a number or a name -/
  | word (text : List Char)
  | string (units : List ℕ)
  deriving DecidableEq

/-- The UTF-16 units of a character. -/
def utf16 (c : Char) : List ℕ :=
  if c.toNat < 0x10000 then [c.toNat]
  else [0xd800 + (c.toNat - 0x10000) / 0x400, 0xdc00 + (c.toNat - 0x10000) % 0x400]

/-- The tokens of one character. -/
def punctuation (c : Char) : Option Token :=
  if c = '[' then some .beginArray
  else if c = ']' then some .endArray
  else if c = '\x7b' then some .beginObject
  else if c = '\x7d' then some .endObject
  else if c = ':' then some .colon
  else if c = ',' then some .comma
  else none

def isBlank (c : Char) : Bool :=
  c = ' ' || c = '\t' || c = '\n' || c = '\r'

/-- A character of a number or a name. -/
def isWordChar (c : Char) : Bool :=
  c.isAlphanum || c = '+' || c = '-' || c = '.'

/-- The unit of a one-letter escape. -/
def escapeUnit (c : Char) : Option ℕ :=
  if c = '"' ∨ c = '\\' ∨ c = '/' then some c.toNat
  else if c = 'b' then some 8
  else if c = 'f' then some 12
  else if c = 'n' then some 10
  else if c = 'r' then some 13
  else if c = 't' then some 9
  else none

def hexDigit (c : Char) : Option ℕ :=
  if '0' ≤ c ∧ c ≤ '9' then some (c.toNat - 48)
  else if 'a' ≤ c ∧ c ≤ 'f' then some (c.toNat - 87)
  else if 'A' ≤ c ∧ c ≤ 'F' then some (c.toNat - 55)
  else none

/-- Where the lexer stands. -/
inductive Lex where
  /-- outside of strings, in a word -/
  | plain (word : List Char)
  | string (units : List ℕ)
  /-- after a backslash -/
  | escape (units : List ℕ)
  /-- after `\u`, so many digits and the number they are -/
  | hex (units : List ℕ) (count value : ℕ)

/-- A word that has come to its end. -/
def flush (word : List Char) : List Token :=
  if word = [] then [] else [.word word]

/-- One character: the next state, and the tokens that end with it. -/
def Lex.step : Lex → Char → Option (Lex × List Token)
  | .plain word, c =>
    if c = '"' then some (.string [], flush word)
    else if isBlank c then some (.plain [], flush word)
    else if isWordChar c then some (.plain (word ++ [c]), [])
    else (punctuation c).map fun token => (.plain [], flush word ++ [token])
  | .string units, c =>
    if c = '"' then some (.plain [], [.string units])
    else if c = '\\' then some (.escape units, [])
    else if c.toNat < 0x20 then none
    else some (.string (units ++ utf16 c), [])
  | .escape units, c =>
    if c = 'u' then some (.hex units 0 0, [])
    else (escapeUnit c).map fun unit => (.string (units ++ [unit]), [])
  | .hex units count value, c =>
    (hexDigit c).map fun digit =>
      if count = 3 then (.string (units ++ [16 * value + digit]), [])
      else (.hex units (count + 1) (16 * value + digit), [])

/-- The tokens of a text, from a state of the lexer. -/
def lexFrom : Lex → List Char → Option (List Token)
  | .plain word, [] => some (flush word)
  | _, [] => none
  | s, c :: rest =>
    (s.step c).bind fun next => (lexFrom next.1 rest).map fun later => next.2 ++ later

/-- The tokens of a text. -/
def lex (text : List Char) : Option (List Token) :=
  lexFrom (.plain []) text

/-! ### Values -/

/-- `int`, `frac` and `exp` of a number, from behind. -/
def isExponent : List Char → Bool
  | [] => true
  | c :: rest =>
    (c = 'e' || c = 'E') &&
      match rest with
      | [] => false
      | sign :: digits =>
        if sign = '+' ∨ sign = '-' then digits ≠ [] && digits.all Char.isDigit
        else (sign :: digits).all Char.isDigit

def isFraction : List Char → Bool
  | '.' :: c :: rest => c.isDigit && isExponent (rest.dropWhile Char.isDigit)
  | text => isExponent text

def isInteger : List Char → Bool
  | '0' :: rest => isFraction rest
  | c :: rest => c.isDigit && isFraction (rest.dropWhile Char.isDigit)
  | [] => false

def isNumber : List Char → Bool
  | '-' :: rest => isInteger rest
  | text => isInteger text

/-- A number or a name. -/
def literal (word : List Char) : Option Json :=
  if word = ['t', 'r', 'u', 'e'] then some (.bool true)
  else if word = ['f', 'a', 'l', 's', 'e'] then some (.bool false)
  else if word = ['n', 'u', 'l', 'l'] then some .null
  else if isNumber word then some (.number word)
  else none

/-- What is open around a value. -/
inductive Frame where
  | item (items : List Json)
  | member (members : List (List ℕ × Json)) (key : List ℕ)

/-- What the reader waits for, inside of what is open. -/
inductive Reader where
  | value (stack : List Frame)
  /-- an item, or the end of the array -/
  | first (stack : List Frame)
  | key (stack : List Frame) (members : List (List ℕ × Json))
  /-- a key, or the end of the object -/
  | firstKey (stack : List Frame)
  | colon (stack : List Frame) (members : List (List ℕ × Json)) (key : List ℕ)
  /-- what follows a value -/
  | after (stack : List Frame) (value : Json)

/-- The first token of a value. -/
def Reader.start (stack : List Frame) : Token → Option Reader
  | .word text => (literal text).map (.after stack)
  | .string units => some (.after stack (.string units))
  | .beginArray => some (.first stack)
  | .beginObject => some (.firstKey stack)
  | _ => none

def Reader.step : Reader → Token → Option Reader
  | .value stack, token => start stack token
  | .first stack, .endArray => some (.after stack (.array []))
  | .first stack, token => start (.item [] :: stack) token
  | .firstKey stack, .endObject => some (.after stack (.object []))
  | .firstKey stack, .string k => some (.colon stack [] k)
  | .key stack members, .string k => some (.colon stack members k)
  | .colon stack members k, .colon => some (.value (.member members k :: stack))
  | .after (.item items :: stack) v, .comma => some (.value (.item (items ++ [v]) :: stack))
  | .after (.item items :: stack) v, .endArray => some (.after stack (.array (items ++ [v])))
  | .after (.member members k :: stack) v, .comma => some (.key stack (members ++ [(k, v)]))
  | .after (.member members k :: stack) v, .endObject =>
    some (.after stack (.object (members ++ [(k, v)])))
  | _, _ => none

/-- The value of a sequence of tokens, if it is one. -/
def ofTokens (tokens : List Token) : Option Json :=
  match tokens.foldlM Reader.step (.value []) with
  | some (.after [] value) => some value
  | _ => none

/-- The value of a JSON text. -/
def parse (text : List Char) : Option Json :=
  (lex text).bind ofTokens

/-! ### Writing characters as their escapes -/

theorem lexFrom_cons (s : Lex) (c : Char) (rest : List Char) :
    lexFrom s (c :: rest) =
      (s.step c).bind fun next => (lexFrom next.1 rest).map fun later => next.2 ++ later := by
  cases s <;> rfl

/-- A character that is in no token but a string, and there stands for itself. -/
structure InStrings (c : Char) : Prop where
  quote : c ≠ '"'
  backslash : c ≠ '\\'
  blank : isBlank c = false
  word : isWordChar c = false
  mark : punctuation c = none
  letter : c ≠ 'u'
  escape : escapeUnit c = none
  digit : hexDigit c = none

/-- The lexer takes such a character inside a string, and nowhere else. -/
theorem InStrings.step {c : Char} (inside : InStrings c) {s : Lex} {next : Lex × List Token}
    (goes : s.step c = some next) :
    ∃ units, s = .string units ∧ next = (.string (units ++ utf16 c), []) := by
  cases s with
  | plain word =>
    simp [Lex.step, inside.quote, inside.blank, inside.word, inside.mark] at goes
  | string units =>
    refine ⟨units, rfl, ?_⟩
    unfold Lex.step at goes
    dsimp only at goes
    rw [if_neg inside.quote, if_neg inside.backslash] at goes
    split_ifs at goes
    exact (Option.some.inj goes).symm
  | escape units => simp [Lex.step, inside.letter, inside.escape] at goes
  | hex units count value => simp [Lex.step, inside.digit] at goes

/-- A step that ends no token. -/
theorem lexFrom_silent {s s' : Lex} {c : Char} (goes : s.step c = some (s', []))
    (rest : List Char) : lexFrom s (c :: rest) = lexFrom s' rest := by
  rw [lexFrom_cons, goes, Option.bind_some]
  exact Option.map_id'

theorem step_hex {c : Char} {digit : ℕ} (read : hexDigit c = some digit) (units : List ℕ)
    (count value : ℕ) : (Lex.hex units count value).step c =
      if count = 3 then some (.string (units ++ [16 * value + digit]), [])
      else some (.hex units (count + 1) (16 * value + digit), []) := by
  unfold Lex.step
  dsimp only
  rw [read, Option.map_some]
  split_ifs <;> rfl

/-- A `\u` escape inside a string is its unit. -/
theorem lexFrom_escape {a b c d : Char} {i j k l : ℕ} (first : hexDigit a = some i)
    (second : hexDigit b = some j) (third : hexDigit c = some k) (last : hexDigit d = some l)
    (units : List ℕ) (rest : List Char) :
    lexFrom (.string units) ('\\' :: 'u' :: a :: b :: c :: d :: rest) =
      lexFrom (.string (units ++ [16 * (16 * (16 * i + j) + k) + l])) rest := by
  have unit : 16 * 0 + i = i := by omega
  have backslash : (Lex.string units).step '\\' = some (.escape units, []) := rfl
  have letter : (Lex.escape units).step 'u' = some (.hex units 0 0, []) := rfl
  rw [lexFrom_silent backslash, lexFrom_silent letter,
    lexFrom_silent (step_hex first units 0 0), unit, lexFrom_silent (step_hex second units 1 i),
    lexFrom_silent (step_hex third units 2 _), lexFrom_silent (step_hex last units 3 _)]

/-- Each character stays, or is one that is in strings only and becomes its `\u` escape. -/
def Rewrites (f : Char → List Char) : Prop :=
  ∀ c, f c = [c] ∨ InStrings c ∧ ∃ a b c' d i j k l,
    f c = ['\\', 'u', a, b, c', d] ∧ hexDigit a = some i ∧ hexDigit b = some j ∧
      hexDigit c' = some k ∧ hexDigit d = some l ∧ utf16 c = [16 * (16 * (16 * i + j) + k) + l]

/-- **The tokens stay as they are.** -/
theorem lexFrom_flatMap {f : Char → List Char} (rewrites : Rewrites f) {s : Lex}
    {text : List Char} {tokens : List Token} (lexed : lexFrom s text = some tokens) :
    lexFrom s (text.flatMap f) = some tokens := by
  induction text generalizing s tokens with
  | nil => exact lexed
  | cons c rest ih =>
    rw [lexFrom_cons, Option.bind_eq_some_iff] at lexed
    obtain ⟨next, goes, mapped⟩ := lexed
    obtain ⟨later, onward, rfl⟩ := Option.map_eq_some_iff.mp mapped
    rw [List.flatMap_cons]
    obtain same | ⟨inside, a, b, c', d, i, j, k, l, escaped, first, second, third, last, unit⟩ :=
      rewrites c
    · rw [same, List.singleton_append, lexFrom_cons, goes, Option.bind_some, ih onward]
      rfl
    · -- only a string takes the character, and it takes the escape as the same unit
      obtain ⟨units, rfl, rfl⟩ := inside.step goes
      rw [escaped]
      simp only [List.cons_append, List.nil_append]
      rw [lexFrom_escape first second third last, ← unit]
      exact ih onward

/-- **A text with the escapes in it is a text of the same value.** -/
theorem parse_flatMap {f : Char → List Char} (rewrites : Rewrites f) {text : List Char}
    {value : Json} (parsed : parse text = some value) : parse (text.flatMap f) = some value := by
  obtain ⟨tokens, lexed, read⟩ := Option.bind_eq_some_iff.mp parsed
  exact Option.bind_eq_some_iff.mpr ⟨tokens, lexFrom_flatMap rewrites lexed, read⟩

end Json

end HullCi.Base
