/-
**How Starlark reads a text: tokens, statements, logical lines.**

This is the reading that the scan of the shape has to bound, stated on its own: it is not translated
from the scan. A text is cut into pieces, longest match first; a text in which some byte starts no
piece, or some literal does not end, has no reading.

* `lex` — the pieces of a text. `Lexed` is its graph, one piece after the other.
* `statements` — the logical statements: a newline outside brackets ends one, and so does `;`.
* `lines` — the logical lines: a newline outside brackets ends one.
* `footprint` — what the scan sees of a piece. A literal that ends is skipped exactly.
-/

import HullCi.Plan.Shape

namespace HullCi.Plan

/-! ### Pieces -/

inductive Kind
  | blank
  | comment
  | newline
  | continuation
  | semicolon
  | name
  | number
  | dot
  | literal
  | opener
  | closer
  | operator
  deriving DecidableEq, Repr

structure Piece where
  kind : Kind
  bytes : List UInt8
  deriving DecidableEq, Repr

/-- Blanks, comments and the ends of lines and statements are no tokens. -/
def Kind.isToken : Kind → Bool
  | .blank | .comment | .newline | .continuation | .semicolon => false
  | _ => true

/-- The pieces made of letters, digits, underscores and dots. -/
def Kind.isWord : Kind → Bool
  | .name | .number | .dot => true
  | _ => false

def isNameByte (b : UInt8) : Bool :=
  Byte.isAlphanumeric b || b == Byte.underscore

/-- The operators and the other marks, longer ones first. -/
def operators : List (List UInt8) :=
  ["//=", "<<=", ">>=", "==", "!=", "<=", ">=", "+=", "-=", "*=", "/=", "%=", "&=", "|=", "^=",
    "**", "//", "<<", ">>", "->", "+", "-", "*", "/", "%", "~", "&", "|", "^", "<", ">", "=", ":",
    ","].map bytesOf

/-- An exponent: `e`, a sign or none, at least one digit. -/
def exponentLength : List UInt8 → ℕ
  | [] => 0
  | e :: rest =>
    let sign := if rest.head? = some 0x2b ∨ rest.head? = some 0x2d then 1 else 0
    let digits := ((rest.drop sign).takeWhile Byte.isDigit).length
    if (e = 0x65 ∨ e = 0x45) ∧ digits ≠ 0 then 1 + sign + digits else 0

/-- A fraction: a dot and any digits. -/
def fractionLength : List UInt8 → ℕ
  | [] => 0
  | b :: rest => if b = Byte.dot then 1 + (rest.takeWhile Byte.isDigit).length else 0

/-- The digits of a number with a radix, after `0x`, `0o` or `0b`. -/
def radixDigit (mark : UInt8) (b : UInt8) : Bool :=
  if mark = 0x78 ∨ mark = 0x58 then
    Byte.isDigit b || (0x41 ≤ b && b ≤ 0x46) || (0x61 ≤ b && b ≤ 0x66)
  else if mark = 0x6f ∨ mark = 0x4f then 0x30 ≤ b && b ≤ 0x37
  else if mark = 0x62 ∨ mark = 0x42 then 0x30 ≤ b && b ≤ 0x31
  else false

/-- A decimal number. -/
def decimalLength (bytes : List UInt8) : ℕ :=
  let whole := (bytes.takeWhile Byte.isDigit).length
  let fraction := fractionLength (bytes.drop whole)
  whole + fraction + exponentLength (bytes.drop (whole + fraction))

/-- A number, at its first byte. -/
def numberLength (bytes : List UInt8) : ℕ :=
  match bytes with
  | zero :: mark :: rest =>
    if zero = 0x30 ∧ (rest.takeWhile (radixDigit mark)).length ≠ 0 then
      2 + (rest.takeWhile (radixDigit mark)).length
    else decimalLength bytes
  | _ => decimalLength bytes

/-- How far the end of a literal is from the byte after its opening quotes. -/
def closing (quote : UInt8) (triple : Bool) : List UInt8 → Option ℕ
  | [] => none
  | [b] => if b = quote ∧ triple = false then some 1 else none
  | b :: c :: rest =>
    if b = Byte.backslash then (closing quote triple rest).map (2 + ·)
    else if b = Byte.newline ∧ triple = false then none
    else if b = quote ∧ triple = false then some 1
    else if b = quote ∧ (c :: rest).take 2 = [quote, quote] then some 3
    else (closing quote triple (c :: rest)).map (1 + ·)

/-- A string literal, from its opening quotes to its closing ones. -/
def literalLength (quote : UInt8) (bytes : List UInt8) : Option ℕ :=
  if isTriple bytes then (closing quote true (bytes.drop 3)).map (3 + ·)
  else (closing quote false (bytes.drop 1)).map (1 + ·)

def isQuote (b : UInt8) : Bool :=
  b == Byte.doubleQuote || b == Byte.singleQuote

/-- The piece that a text starts with, and its length. -/
def piece : List UInt8 → Option (Kind × ℕ)
  | [] => none
  | b :: rest =>
    if b = Byte.space ∨ b = Byte.tab ∨ b = Byte.carriageReturn then some (.blank, 1)
    else if b = Byte.hash then
      some (.comment, ((b :: rest).takeWhile fun c => c != Byte.newline).length)
    else if b = Byte.newline then some (.newline, 1)
    else if b = Byte.backslash then
      if rest.take 1 = [Byte.newline] then some (.continuation, 2)
      else if rest.take 2 = [Byte.carriageReturn, Byte.newline] then some (.continuation, 3)
      else none
    else if b = Byte.semicolon then some (.semicolon, 1)
    else if Byte.isOpener b then some (.opener, 1)
    else if Byte.isCloser b then some (.closer, 1)
    else if isQuote b then (literalLength b (b :: rest)).map (.literal, ·)
    else if b = 0x72 ∧ (rest.head?.map isQuote) = some true then
      -- A raw literal: its backslashes keep a quote from closing it all the same.
      (literalLength (rest.headD 0) rest).map fun n => (.literal, 1 + n)
    else if Byte.isDigit b ∨ (b = Byte.dot ∧ (rest.head?.map Byte.isDigit) = some true) then
      some (.number, numberLength (b :: rest))
    else if b = Byte.dot then some (.dot, 1)
    else if isNameByte b then some (.name, ((b :: rest).takeWhile isNameByte).length)
    else (operators.find? fun op => op.isPrefixOf (b :: rest)).map fun op => (.operator, op.length)

/-- The pieces of a text. A piece takes at least a byte, so as many turns as bytes suffice. -/
def lexLoop : ℕ → List UInt8 → Option (List Piece)
  | _, [] => some []
  | 0, _ :: _ => none
  | turns + 1, b :: rest =>
    match piece (b :: rest) with
    | none => none
    | some (kind, n) =>
      (lexLoop turns ((b :: rest).drop n)).map (⟨kind, (b :: rest).take n⟩ :: ·)

def lex (bytes : List UInt8) : Option (List Piece) :=
  lexLoop bytes.length bytes

/-! ### Statements and lines -/

/-- How many brackets are open after a piece. A closing bracket without its opening one closes
nothing. -/
def Piece.depth (unclosed : ℕ) (p : Piece) : ℕ :=
  match p.kind with
  | .opener => unclosed + 1
  | .closer => unclosed - 1
  | _ => unclosed

/-- Pieces cut into groups, each ended by a piece that ends one. -/
def split (ends : ℕ → Piece → Bool) : ℕ → List Piece → List (List Piece)
  | _, [] => []
  | depth, p :: rest =>
    if ends depth p then [p] :: split ends (p.depth depth) rest
    else
      match split ends (p.depth depth) rest with
      | [] => [[p]]
      | group :: more => (p :: group) :: more

/-- A newline outside brackets ends a logical line. -/
def endsLine (depth : ℕ) (p : Piece) : Bool :=
  p.kind == .newline && depth == 0

/-- The end of a logical line ends a statement, and so does `;`. -/
def endsStatement (depth : ℕ) (p : Piece) : Bool :=
  endsLine depth p || p.kind == .semicolon

/-- The logical statements. -/
def statements (pieces : List Piece) : List (List Piece) :=
  split endsStatement 0 pieces

/-- The logical lines. -/
def lines (pieces : List Piece) : List (List Piece) :=
  split endsLine 0 pieces

/-- How many tokens a group of pieces has. -/
def tokens (pieces : List Piece) : ℕ :=
  pieces.countP fun p => p.kind.isToken

/-! ### Groups -/

section Split

variable {ends : ℕ → Piece → Bool}

theorem split_flatten (depth : ℕ) (pieces : List Piece) :
    (split ends depth pieces).flatten = pieces := by
  induction pieces generalizing depth with
  | nil => rfl
  | cons p rest ih =>
    have tail := ih (p.depth depth)
    rw [split]
    split_ifs with cut
    · rw [List.flatten_cons, tail]
      rfl
    · cases groups : split ends (p.depth depth) rest with
      | nil =>
        rw [groups] at tail
        rw [← tail]
        rfl
      | cons group more =>
        rw [groups, List.flatten_cons] at tail
        rw [List.flatten_cons, List.cons_append, tail]

/-- Every group but the last one is ended by a piece that ends one. -/
theorem split_dropLast (depth : ℕ) (pieces : List Piece) :
    ∀ group ∈ (split ends depth pieces).dropLast,
      ∃ inner last d, group = inner ++ [last] ∧ ends d last = true := by
  induction pieces generalizing depth with
  | nil => simp [split]
  | cons p rest ih =>
    have tail := ih (p.depth depth)
    intro group member
    rw [split] at member
    split_ifs at member with cut
    · cases groups : split ends (p.depth depth) rest with
      | nil => simp [groups] at member
      | cons g more =>
        rw [groups, List.dropLast_cons_cons, ← groups] at member
        rcases List.mem_cons.mp member with rfl | member
        · exact ⟨[], p, depth, rfl, cut⟩
        · exact tail group member
    · cases groups : split ends (p.depth depth) rest with
      | nil => simp [groups] at member
      | cons g more =>
        rw [groups] at member tail
        cases more with
        | nil => simp at member
        | cons h more =>
          rw [List.dropLast_cons_cons] at member tail
          rcases List.mem_cons.mp member with rfl | member
          · obtain ⟨inner, last, d, rfl, ended⟩ := tail g List.mem_cons_self
            exact ⟨p :: inner, last, d, rfl, ended⟩
          · exact tail group (List.mem_cons_of_mem _ member)

/-- Where the last piece ends a group, every group is ended by its last piece and no other. -/
theorem split_ended {cuts : Piece → Bool} (depth : ℕ) {front : List Piece} {t : Piece}
    (ended : cuts t = true) :
    ∀ group ∈ split (fun _ => cuts) depth (front ++ [t]),
      ∃ inner last, group = inner ++ [last] ∧ cuts last = true ∧ ∀ p ∈ inner, cuts p = false := by
  induction front generalizing depth with
  | nil =>
    intro group member
    rw [List.nil_append, split, if_pos ended] at member
    obtain rfl : group = [t] := by simpa [split] using member
    exact ⟨[], t, rfl, ended, by simp⟩
  | cons p front ih =>
    have tail := ih (p.depth depth)
    intro group member
    rw [List.cons_append, split] at member
    split_ifs at member with cut
    · rcases List.mem_cons.mp member with rfl | member
      · exact ⟨[], p, rfl, cut, by simp⟩
      · exact tail group member
    · cases groups : split (fun _ => cuts) (p.depth depth) (front ++ [t]) with
      | nil =>
        have whole : (split (fun _ => cuts) (p.depth depth) (front ++ [t])).flatten =
            front ++ [t] := split_flatten _ _
        simp [groups] at whole
      | cons g more =>
        rw [groups] at member tail
        rcases List.mem_cons.mp member with rfl | member
        · obtain ⟨inner, last, rfl, ended, inside⟩ := tail g List.mem_cons_self
          refine ⟨p :: inner, last, rfl, ended, ?_⟩
          intro q inInner
          rcases List.mem_cons.mp inInner with rfl | inInner
          · exact Bool.eq_false_iff.mpr cut
          · exact inside q inInner
        · exact tail group (List.mem_cons_of_mem _ member)

end Split

/-! ### Readings -/

/-- The pieces of a text, one after the other. -/
inductive Lexed : List UInt8 → List Piece → Prop
  | nil : Lexed [] []
  | cons {bytes : List UInt8} {kind : Kind} {n : ℕ} {pieces : List Piece}
      (found : piece bytes = some (kind, n)) (rest : Lexed (bytes.drop n) pieces) :
      Lexed bytes (⟨kind, bytes.take n⟩ :: pieces)

theorem lexed_of_lexLoop {turns : ℕ} {bytes : List UInt8} {pieces : List Piece}
    (read : lexLoop turns bytes = some pieces) : Lexed bytes pieces := by
  induction turns generalizing bytes pieces with
  | zero =>
    cases bytes with
    | nil =>
      cases read
      exact .nil
    | cons b rest => cases read
  | succ turns ih =>
    cases bytes with
    | nil =>
      cases read
      exact .nil
    | cons b rest =>
      rw [lexLoop] at read
      cases found : piece (b :: rest) with
      | none => simp [found] at read
      | some first =>
        obtain ⟨kind, n⟩ := first
        simp only [found] at read
        obtain ⟨more, readMore, rfl⟩ := Option.map_eq_some_iff.mp read
        exact .cons found (ih readMore)

theorem lexed_of_lex {bytes : List UInt8} {pieces : List Piece} (read : lex bytes = some pieces) :
    Lexed bytes pieces :=
  lexed_of_lexLoop read

theorem skipBody_of_closing {quote : UInt8} {triple : Bool} {bytes : List UInt8} {n : ℕ}
    (quoted : quote ≠ Byte.newline) (ends : closing quote triple bytes = some n) :
    skipBody quote triple bytes = n ∧ n ≤ bytes.length := by
  induction bytes using closing.induct quote triple generalizing n with
  | case1 => cases ends
  | case2 b last =>
    obtain ⟨rfl, rfl⟩ := last
    simp only [closing] at ends
    simp_all [skipBody]
  | case3 b other => simp [closing, other] at ends
  | case4 c rest ih =>
    rw [closing, if_pos rfl] at ends
    obtain ⟨m, more, rfl⟩ := Option.map_eq_some_iff.mp ends
    obtain ⟨same, bound⟩ := ih more
    rw [skipBody, if_pos rfl, same]
    exact ⟨rfl, by simp only [List.length_cons]; omega⟩
  | case5 b c rest escape stop =>
    rw [closing, if_neg escape, if_pos stop] at ends
    cases ends
  | case6 b c rest escape stop single =>
    rw [closing, if_neg escape, if_neg stop, if_pos single] at ends
    cases ends
    rw [skipBody, if_neg escape, if_neg stop, if_pos single.1, if_pos single.2]
    exact ⟨rfl, by simp⟩
  | case7 b c rest escape stop single three =>
    rw [closing, if_neg escape, if_neg stop, if_neg single, if_pos three] at ends
    cases ends
    have long : triple ≠ false := fun short => single ⟨three.1, short⟩
    rw [skipBody, if_neg escape, if_neg stop, if_pos three.1, if_neg long, if_pos three.2]
    have two := congrArg List.length three.2
    simp only [List.length_take, List.length_cons, List.length_nil] at two
    exact ⟨rfl, by simp only [List.length_cons]; omega⟩
  | case8 b c rest escape stop single three ih =>
    rw [closing, if_neg escape, if_neg stop, if_neg single, if_neg three] at ends
    obtain ⟨m, more, rfl⟩ := Option.map_eq_some_iff.mp ends
    obtain ⟨skips, bound⟩ := ih more
    refine ⟨?_, by simp only [List.length_cons] at bound ⊢; omega⟩
    rw [skipBody, if_neg escape, if_neg stop]
    by_cases same : b = quote
    · have long : triple ≠ false := fun short => single ⟨same, short⟩
      have notThree : ¬ (c :: rest).take 2 = [quote, quote] := fun two => three ⟨same, two⟩
      rw [if_pos same, if_neg long, if_neg notThree, skips]
    · rw [if_neg same, skips]

theorem skipString_of_literal {quote : UInt8} {bytes : List UInt8} {n : ℕ}
    (quoted : quote ≠ Byte.newline) (ends : literalLength quote bytes = some n) :
    skipString quote bytes = n ∧ (bytes ≠ [] → n ≤ bytes.length) := by
  unfold literalLength at ends
  unfold skipString
  split_ifs at ends ⊢ with triple
  · obtain ⟨m, more, rfl⟩ := Option.map_eq_some_iff.mp ends
    obtain ⟨same, bound⟩ := skipBody_of_closing quoted more
    refine ⟨by rw [same], ?_⟩
    intro _
    unfold isTriple at triple
    split at triple
    · simp only [List.drop_succ_cons, List.drop_zero, List.length_cons] at bound ⊢
      omega
    · cases triple
  · obtain ⟨m, more, rfl⟩ := Option.map_eq_some_iff.mp ends
    obtain ⟨same, bound⟩ := skipBody_of_closing quoted more
    refine ⟨by rw [same], ?_⟩
    intro some
    have := List.length_pos_of_ne_nil some
    simp only [List.length_drop] at bound
    omega

/-! ### Footprints -/

/-- What the scan sees of a piece: the bytes taken and the bytes that are left. -/
inductive Footprint : Kind → List UInt8 → List UInt8 → Prop
  | blank {b : UInt8} {rest : List UInt8} (kind : classify b = .blank) : Footprint .blank [b] rest
  | newline {rest : List UInt8} : Footprint .newline [Byte.newline] rest
  | semicolon {rest : List UInt8} : Footprint .semicolon [Byte.semicolon] rest
  | opener {b : UInt8} {rest : List UInt8} (kind : classify b = .opener) :
      Footprint .opener [b] rest
  | closer {b : UInt8} {rest : List UInt8} (kind : classify b = .closer) :
      Footprint .closer [b] rest
  | comment {body rest : List UInt8} (inLine : ∀ b ∈ body, b ≠ Byte.newline)
      (ends : ∀ b ∈ rest.head?, b = Byte.newline) :
      Footprint .comment (Byte.hash :: body) rest
  | continuation {gap rest : List UInt8} (gapped : gap = [] ∨ gap = [Byte.carriageReturn]) :
      Footprint .continuation (Byte.backslash :: (gap ++ [Byte.newline])) rest
  | literal {raw body rest : List UInt8} {quote : UInt8} (marked : raw = [] ∨ raw = [0x72])
      (quoted : classify quote = .quote)
      (skip : skipString quote (quote :: (body ++ rest)) = (quote :: body).length) :
      Footprint .literal (raw ++ quote :: body) rest
  | run {kind : Kind} {word gap back rest : List UInt8} (kinds : kind.isWord = true)
      (some : word ≠ []) (words : ∀ b ∈ word, isWord b = true)
      (gapped : gap = [] ∧ back = [] ∨ ∃ c, gap = [c] ∧ classify c = .other)
      (backs : ∀ b ∈ back, isWord b = true) :
      Footprint kind (word ++ gap ++ back) rest
  | operator {op rest : List UInt8} (some : op ≠ []) (others : ∀ b ∈ op, classify b = .other) :
      Footprint .operator op rest

theorem isWord_of_digit {b : UInt8} (digit : Byte.isDigit b = true) : isWord b = true := by
  simp [isWord_eq, Byte.isAlphanumeric, digit]

theorem isWord_of_nameByte {b : UInt8} (name : isNameByte b = true) : isWord b = true := by
  unfold isNameByte at name
  rw [isWord_eq, name, Bool.true_or]

theorem isWord_of_radix {mark b : UInt8} (digit : radixDigit mark b = true) : isWord b = true := by
  have alphanumeric : ∀ b : UInt8,
      (Byte.isDigit b || (0x41 ≤ b && b ≤ 0x46) || (0x61 ≤ b && b ≤ 0x66)) = true → isWord b := by
    apply forall_byte
    decide +kernel
  have octal : ∀ b : UInt8, (0x30 ≤ b && b ≤ 0x37) = true → isWord b := by
    apply forall_byte
    decide +kernel
  have binary : ∀ b : UInt8, (0x30 ≤ b && b ≤ 0x31) = true → isWord b := by
    apply forall_byte
    decide +kernel
  unfold radixDigit at digit
  split_ifs at digit
  · exact alphanumeric b digit
  · exact octal b digit
  · exact binary b digit

theorem isWord_of_mark {mark b : UInt8} (digit : radixDigit mark b = true) :
    isWord mark = true := by
  unfold radixDigit at digit
  split_ifs at digit with hexadecimal octal binary
  · rcases hexadecimal with rfl | rfl <;> decide
  · rcases octal with rfl | rfl <;> decide
  · rcases binary with rfl | rfl <;> decide

theorem classify_of_isQuote {b : UInt8} (quote : isQuote b = true) : classify b = .quote := by
  revert b
  apply forall_byte
  decide +kernel

theorem operators_other : ∀ op ∈ operators, op ≠ [] ∧ ∀ b ∈ op, classify b = .other := by
  decide +kernel

/-! ### Numbers -/

/-- Bytes of a number: words, perhaps with a sign between two of them. -/
structure Signed (taken word gap back : List UInt8) : Prop where
  same : taken = word ++ gap ++ back
  words : ∀ b ∈ word, isWord b = true
  gapped : gap = [] ∧ back = [] ∨ ∃ c, gap = [c] ∧ classify c = .other
  backs : ∀ b ∈ back, isWord b = true

theorem digits_word {p : UInt8 → Bool} (word : ∀ b, p b = true → isWord b = true)
    (bytes : List UInt8) :
    ∀ b ∈ bytes.take (bytes.takeWhile p).length, isWord b = true := by
  rw [take_takeWhile]
  intro b member
  exact word b (List.mem_takeWhile_imp member)

theorem fraction_word (bytes : List UInt8) :
    ∀ b ∈ bytes.take (fractionLength bytes), isWord b = true := by
  cases bytes with
  | nil => simp
  | cons c rest =>
    rw [fractionLength]
    split_ifs with dot
    · rw [Nat.add_comm, List.take_succ_cons]
      intro b member
      rcases List.mem_cons.mp member with rfl | inDigits
      · rw [dot]
        decide
      · exact digits_word (fun _ => isWord_of_digit) rest b inDigits
    · simp

theorem exponent_signed (bytes : List UInt8) :
    ∃ word gap back, Signed (bytes.take (exponentLength bytes)) word gap back := by
  cases bytes with
  | nil => exact ⟨[], [], [], by simp, by simp, .inl ⟨rfl, rfl⟩, by simp⟩
  | cons e rest =>
    rw [exponentLength]
    split_ifs with sign exponent exponent
    · obtain ⟨letter, _⟩ := exponent
      cases rest with
      | nil => simp at sign
      | cons c digits =>
        have mark : c = 0x2b ∨ c = 0x2d := by simpa using sign
        refine ⟨[e], [c], digits.take (digits.takeWhile Byte.isDigit).length, ?_, ?_, ?_, ?_⟩
        · rw [List.drop_one, List.tail_cons, Nat.add_comm, Nat.add_comm 1 1]
          rfl
        · rintro b member
          obtain rfl := List.mem_singleton.mp member
          rcases letter with rfl | rfl <;> decide
        · refine .inr ⟨c, rfl, ?_⟩
          rcases mark with rfl | rfl <;> decide
        · exact digits_word (fun _ => isWord_of_digit) digits
    · exact ⟨[], [], [], by simp, by simp, .inl ⟨rfl, rfl⟩, by simp⟩
    · obtain ⟨letter, _⟩ := exponent
      refine ⟨e :: rest.take (rest.takeWhile Byte.isDigit).length, [], [], ?_, ?_, .inl ⟨rfl, rfl⟩,
        by simp⟩
      · rw [List.drop_zero, Nat.add_zero, Nat.add_comm, List.take_succ_cons]
        simp
      · intro b member
        rcases List.mem_cons.mp member with rfl | inDigits
        · rcases letter with rfl | rfl <;> decide
        · exact digits_word (fun _ => isWord_of_digit) rest b inDigits
    · exact ⟨[], [], [], by simp, by simp, .inl ⟨rfl, rfl⟩, by simp⟩

theorem decimal_signed (bytes : List UInt8) :
    ∃ word gap back, Signed (bytes.take (decimalLength bytes)) word gap back ∧
      bytes.take ((bytes.takeWhile Byte.isDigit).length +
        fractionLength (bytes.drop (bytes.takeWhile Byte.isDigit).length)) <+: word := by
  unfold decimalLength
  dsimp only
  generalize wholeSize : (bytes.takeWhile Byte.isDigit).length = whole
  generalize fractionSize : fractionLength (bytes.drop whole) = fraction
  obtain ⟨word, gap, back, same, words, gapped, backs⟩ :=
    exponent_signed (bytes.drop (whole + fraction))
  refine ⟨bytes.take (whole + fraction) ++ word, gap, back, ⟨?_, ?_, gapped, backs⟩,
    List.prefix_append _ _⟩
  · rw [List.take_add, same]
    simp only [List.append_assoc]
  · intro b member
    rcases List.mem_append.mp member with inFront | inExponent
    · rw [List.take_add] at inFront
      rcases List.mem_append.mp inFront with inWhole | inFraction
      · rw [← wholeSize] at inWhole
        exact digits_word (fun _ => isWord_of_digit) bytes b inWhole
      · rw [← fractionSize] at inFraction
        exact fraction_word _ b inFraction
    · exact words b inExponent

theorem number_signed {b : UInt8} (rest : List UInt8)
    (starts : Byte.isDigit b = true ∨ b = Byte.dot) :
    ∃ word gap back, Signed ((b :: rest).take (numberLength (b :: rest))) word gap back ∧
      word ≠ [] := by
  have decimal : ∃ word gap back, Signed ((b :: rest).take (decimalLength (b :: rest))) word gap back ∧
      word ≠ [] := by
    obtain ⟨word, gap, back, signed, front⟩ := decimal_signed (b :: rest)
    refine ⟨word, gap, back, signed, ?_⟩
    rintro rfl
    have none := List.prefix_nil.mp front
    rw [List.take_eq_nil_iff] at none
    have zero := none.resolve_right (by simp)
    rcases starts with digit | rfl
    · simp [digit] at zero
    · simp [fractionLength, show Byte.isDigit Byte.dot = false by decide] at zero
  cases rest with
  | nil => exact decimal
  | cons mark more =>
    unfold numberLength
    dsimp only
    split_ifs with radix
    · obtain ⟨rfl, some⟩ := radix
      refine ⟨0x30 :: mark :: more.take (more.takeWhile (radixDigit mark)).length, [], [],
        ⟨?_, ?_, .inl ⟨rfl, rfl⟩, by simp⟩, by simp⟩
      · rw [Nat.add_comm]
        simp
      · intro c member
        rcases List.mem_cons.mp member with rfl | member
        · decide
        rcases List.mem_cons.mp member with rfl | inDigits
        · obtain ⟨d, inDigits⟩ := List.exists_mem_of_length_pos (Nat.pos_of_ne_zero some)
          exact isWord_of_mark (List.mem_takeWhile_imp inDigits)
        · exact digits_word (fun _ => isWord_of_radix) more c inDigits
    · exact decimal

/-! ### Every piece leaves a footprint -/

theorem take_literal {quote : UInt8} {rest : List UInt8} {n : ℕ} (quoted : isQuote quote = true)
    (ends : literalLength quote (quote :: rest) = some n) :
    ∃ body, (quote :: rest).take n = quote :: body ∧
      skipString quote (quote :: (body ++ (quote :: rest).drop n)) = (quote :: body).length := by
  have other : quote ≠ Byte.newline := by
    rintro rfl
    exact absurd quoted (by decide)
  obtain ⟨skip, bound⟩ := skipString_of_literal other ends
  have positive := skipString_pos quote (quote :: rest)
  have inside := bound (by simp)
  obtain ⟨m, rfl⟩ : ∃ m, n = m + 1 := ⟨n - 1, by omega⟩
  refine ⟨rest.take m, List.take_succ_cons, ?_⟩
  rw [List.drop_succ_cons, List.take_append_drop, skip]
  simp only [List.length_cons, List.length_take] at inside ⊢
  omega

/-- **What the scan sees of a piece.** -/
theorem footprint {bytes : List UInt8} {kind : Kind} {n : ℕ} (found : piece bytes = some (kind, n)) :
    Footprint kind (bytes.take n) (bytes.drop n) := by
  cases bytes with
  | nil => cases found
  | cons b rest =>
    rw [piece] at found
    by_cases blank : b = Byte.space ∨ b = Byte.tab ∨ b = Byte.carriageReturn
    · rw [if_pos blank] at found
      cases found
      refine .blank ?_
      rcases blank with rfl | rfl | rfl <;> decide
    rw [if_neg blank] at found
    by_cases comment : b = Byte.hash
    · rw [if_pos comment] at found
      cases found
      subst comment
      rw [take_takeWhile, drop_takeWhile, List.takeWhile_cons, if_pos (by decide),
        List.dropWhile_cons, if_pos (by decide)]
      refine .comment ?_ ?_
      · intro c member
        simpa using List.mem_takeWhile_imp member
      · intro c head
        have stops := List.head?_dropWhile_not (fun c => c != Byte.newline) rest
        rw [Option.mem_def.mp head] at stops
        simpa using stops
    rw [if_neg comment] at found
    by_cases newline : b = Byte.newline
    · rw [if_pos newline] at found
      cases found
      cases newline
      exact .newline
    rw [if_neg newline] at found
    by_cases backslash : b = Byte.backslash
    · rw [if_pos backslash] at found
      subst backslash
      by_cases joined : rest.take 1 = [Byte.newline]
      · rw [if_pos joined] at found
        cases found
        rw [List.take_succ_cons, joined]
        exact .continuation (.inl rfl)
      rw [if_neg joined] at found
      by_cases returned : rest.take 2 = [Byte.carriageReturn, Byte.newline]
      · rw [if_pos returned] at found
        cases found
        rw [List.take_succ_cons, returned]
        exact .continuation (.inr rfl)
      rw [if_neg returned] at found
      cases found
    rw [if_neg backslash] at found
    by_cases semicolon : b = Byte.semicolon
    · rw [if_pos semicolon] at found
      cases found
      cases semicolon
      exact .semicolon
    rw [if_neg semicolon] at found
    by_cases opener : Byte.isOpener b = true
    · rw [if_pos opener] at found
      cases found
      exact .opener (classify_opener.mpr opener)
    rw [if_neg opener] at found
    by_cases closer : Byte.isCloser b = true
    · rw [if_pos closer] at found
      cases found
      exact .closer (classify_closer.mpr closer)
    rw [if_neg closer] at found
    by_cases quote : isQuote b = true
    · rw [if_pos quote] at found
      obtain ⟨m, ends, same⟩ := Option.map_eq_some_iff.mp found
      cases same
      obtain ⟨body, taken, skip⟩ := take_literal quote ends
      rw [taken]
      exact (Footprint.literal (.inl rfl) (classify_of_isQuote quote) skip :
        Footprint .literal ([] ++ b :: body) _)
    rw [if_neg quote] at found
    by_cases raw : b = 0x72 ∧ (rest.head?.map isQuote) = some true
    · rw [if_pos raw] at found
      obtain ⟨m, ends, same⟩ := Option.map_eq_some_iff.mp found
      cases same
      obtain ⟨rfl, quoted⟩ := raw
      cases rest with
      | nil => cases quoted
      | cons q more =>
        have quoted : isQuote q = true := by simpa using quoted
        obtain ⟨body, taken, skip⟩ := take_literal quoted ends
        rw [Nat.add_comm, List.take_succ_cons, List.drop_succ_cons, taken]
        exact (Footprint.literal (.inr rfl) (classify_of_isQuote quoted) skip :
          Footprint .literal ([0x72] ++ q :: body) _)
    rw [if_neg raw] at found
    by_cases number : Byte.isDigit b = true ∨
        (b = Byte.dot ∧ (rest.head?.map Byte.isDigit) = some true)
    · rw [if_pos number] at found
      cases found
      obtain ⟨word, gap, back, ⟨same, words, gapped, backs⟩, some⟩ :=
        number_signed rest (number.imp id And.left)
      rw [same]
      exact .run rfl some words gapped backs
    rw [if_neg number] at found
    by_cases dot : b = Byte.dot
    · rw [if_pos dot] at found
      cases found
      subst dot
      exact (Footprint.run rfl (by simp) (List.forall_mem_singleton.mpr rfl) (.inl ⟨rfl, rfl⟩)
        (by simp) :
        Footprint .dot ([Byte.dot] ++ [] ++ []) _)
    rw [if_neg dot] at found
    by_cases name : isNameByte b = true
    · rw [if_pos name] at found
      cases found
      have shape : (b :: rest).take ((b :: rest).takeWhile isNameByte).length =
          (b :: rest).takeWhile isNameByte ++ [] ++ [] := by
        rw [take_takeWhile, List.append_nil, List.append_nil]
      rw [shape]
      refine .run rfl ?_ ?_ (.inl ⟨rfl, rfl⟩) (by simp)
      · simp [name]
      · exact fun c member => isWord_of_nameByte (List.mem_takeWhile_imp member)
    rw [if_neg name] at found
    obtain ⟨op, chosen, same⟩ := Option.map_eq_some_iff.mp found
    cases same
    obtain ⟨some, others⟩ := operators_other op (List.mem_of_find?_eq_some chosen)
    have front : op <+: b :: rest :=
      List.isPrefixOf_iff_prefix.mp
        (List.find?_some (p := fun o : List UInt8 => o.isPrefixOf (b :: rest)) chosen)
    rw [← List.prefix_iff_eq_take.mp front]
    exact .operator some others

end HullCi.Plan
