/-
**The shape of a pipeline file: a byte scan that runs before the parser.**

`measure` reads the bytes once for the nesting, the statement sizes, the indentation and the `elif`
ladders of the code, and once more for the raw nesting. Each turn of the scan's loop consumes one
item: a blank, a comment, a string literal, a bracket, a newline, a run of word bytes, another byte.

* `scan_of_goes` — the scan gives what its turns reach, whatever the number of turns.
* `checkShape_ok` — the sources that are let through to the parser.
-/

import HullCi.Base.Surplus
import HullCi.Plan.Pipeline
import HullCi.Plan.Validate
import Mathlib.Data.List.TakeWhile
import Mathlib.Logic.Function.Basic
import Mathlib.Logic.Relation

namespace HullCi.Plan

/-! ### Bytes -/

namespace Byte

def tab : UInt8 := 0x09
def newline : UInt8 := 0x0a
def carriageReturn : UInt8 := 0x0d
def space : UInt8 := 0x20
def doubleQuote : UInt8 := 0x22
def hash : UInt8 := 0x23
def singleQuote : UInt8 := 0x27
def dot : UInt8 := 0x2e
def semicolon : UInt8 := 0x3b
def backslash : UInt8 := 0x5c
def underscore : UInt8 := 0x5f

/-- `(`, `[` or `{`. -/
def isOpener (b : UInt8) : Bool :=
  b == 0x28 || b == 0x5b || b == 0x7b

/-- `)`, `]` or `}`. -/
def isCloser (b : UInt8) : Bool :=
  b == 0x29 || b == 0x5d || b == 0x7d

def isDigit (b : UInt8) : Bool :=
  0x30 ≤ b && b ≤ 0x39

/-- `u8::is_ascii_alphanumeric`. -/
def isAlphanumeric (b : UInt8) : Bool :=
  isDigit b || (0x41 ≤ b && b ≤ 0x5a) || (0x61 ≤ b && b ≤ 0x7a)

end Byte

/-- The bytes of a text. -/
def bytesOf (source : String) : List UInt8 :=
  source.toUTF8.toList

/-- What the scan makes of a byte, in the order of its match. -/
inductive Class
  | comment
  | quote
  | opener
  | closer
  | newline
  | semicolon
  | blank
  | word
  | other
  deriving DecidableEq, Repr

def classify (b : UInt8) : Class :=
  if b = Byte.hash then .comment
  else if b = Byte.doubleQuote ∨ b = Byte.singleQuote then .quote
  else if Byte.isOpener b then .opener
  else if Byte.isCloser b then .closer
  else if b = Byte.newline then .newline
  else if b = Byte.semicolon then .semicolon
  else if b = Byte.space ∨ b = Byte.tab ∨ b = Byte.carriageReturn then .blank
  else if Byte.isAlphanumeric b ∨ b = Byte.underscore ∨ b = Byte.dot then .word
  else .other

/-! ### Measures -/

structure Shape where
  /-- The deepest brackets outside comments and string literals. -/
  codeNesting : ℕ
  /-- The deepest brackets, counting every byte. -/
  rawNesting : ℕ
  /-- The largest single statement. -/
  statementWeight : ℕ
  /-- The deepest leading indentation, in columns. -/
  indentColumns : ℕ
  /-- The longest run of branches at one indentation. -/
  blockChain : ℕ
  deriving DecidableEq, Repr

/-- The loop of `raw_nesting`: the depth, and the largest so far. -/
def rawLoop : ℕ × ℕ → List UInt8 → ℕ × ℕ
  | now, [] => now
  | (depth, most), b :: rest =>
    if Byte.isOpener b then rawLoop (depth + 1, max most (depth + 1)) rest
    else if Byte.isCloser b then rawLoop (depth - 1, most) rest
    else rawLoop (depth, most) rest

/-- The backstop pass: every bracket byte counts, in strings and comments too. -/
def rawNesting (bytes : List UInt8) : ℕ :=
  (rawLoop (0, 0) bytes).2

/-- How many bytes of a literal there are after its opening quotes. An escape takes the next byte
with it, and a literal in single quotes stops before a newline. -/
def skipBody (quote : UInt8) (triple : Bool) : List UInt8 → ℕ
  | [] => 0
  | [b] => if b = Byte.newline ∧ triple = false then 0 else 1
  | b :: c :: rest =>
    if b = Byte.backslash then 2 + skipBody quote triple rest
    else if b = Byte.newline ∧ triple = false then 0
    else if b = quote then
      if triple = false then 1
      else if (c :: rest).take 2 = [quote, quote] then 3
      else 1 + skipBody quote triple (c :: rest)
    else 1 + skipBody quote triple (c :: rest)

/-- Whether the literal that starts here has triple quotes. -/
def isTriple (bytes : List UInt8) : Bool :=
  match bytes with
  | a :: b :: c :: _ => a == b && b == c
  | _ => false

/-- `skip_string`: how many bytes the literal takes that starts here. -/
def skipString (quote : UInt8) (bytes : List UInt8) : ℕ :=
  if isTriple bytes then 3 + skipBody quote true (bytes.drop 3)
  else 1 + skipBody quote false (bytes.drop 1)

def isWord (b : UInt8) : Bool :=
  classify b == .word

/-- How far one turn of the loop moves. -/
def itemLength : List UInt8 → ℕ
  | [] => 0
  | b :: rest =>
    match classify b with
    | .comment => ((b :: rest).takeWhile fun c => c != Byte.newline).length
    | .quote => skipString b (b :: rest)
    | .word => ((b :: rest).takeWhile isWord).length
    | _ => 1

/-! ### The scan -/

/-- The variables of the scan's loop. -/
structure Scan where
  shape : Shape
  /-- The run open at each column. -/
  chainAt : ℕ → ℕ
  depth : ℕ
  weight : ℕ
  atLineStart : Bool
  indent : ℕ
  /-- The byte before the next one. -/
  last : Option UInt8

def Scan.start : Scan where
  shape := ⟨0, 0, 0, 0, 0⟩
  chainAt := fun _ => 0
  depth := 0
  weight := 0
  atLineStart := true
  indent := 0
  last := none

namespace Scan

/-- What the first bytes of a line make of the run open at its column. -/
def entry (running : ℕ) (bytes : List UInt8) : ℕ :=
  if (bytesOf "elif").isPrefixOf bytes then running + 1
  else if (bytesOf "if ").isPrefixOf bytes ∨ (bytesOf "if(").isPrefixOf bytes then 1
  else if (bytesOf "else").isPrefixOf bytes then running
  else 0

/-- The first non-blank byte settles the line's indentation and its column's run. -/
def settle (s : Scan) (bytes : List UInt8) : Scan :=
  { s with
    shape := { s.shape with
      indentColumns := max s.shape.indentColumns s.indent
      blockChain :=
        if (bytesOf "elif").isPrefixOf bytes ∨ (bytesOf "if ").isPrefixOf bytes ∨
            (bytesOf "if(").isPrefixOf bytes then
          max s.shape.blockChain (entry (s.chainAt s.indent) bytes)
        else s.shape.blockChain }
    chainAt := Function.update s.chainAt s.indent (entry (s.chainAt s.indent) bytes)
    atLineStart := false }

/-- A statement ends here, unless a bracket is open or a backslash continues the line. -/
def endStatement (s : Scan) (b : UInt8) : Scan :=
  if s.depth = 0 ∧ ¬ (b = Byte.newline ∧ s.last = some Byte.backslash) then
    { s with
      shape := { s.shape with statementWeight := max s.shape.statementWeight s.weight }
      weight := 0 }
  else s

/-- One more unit of weight. -/
def weigh (s : Scan) : Scan :=
  { s with weight := s.weight + 1 }

/-- One match arm of the loop. -/
def arm (s : Scan) (b : UInt8) : Scan :=
  match classify b with
  | .comment => s
  | .quote => s.weigh
  | .opener =>
    { s.weigh with
      depth := s.depth + 1
      shape := { s.shape with codeNesting := max s.shape.codeNesting (s.depth + 1) } }
  | .closer => { s.weigh with depth := s.depth - 1 }
  | .newline => { s.endStatement b with atLineStart := true, indent := 0 }
  | .semicolon => s.endStatement b
  | .blank => s
  | .word => s.weigh
  | .other => s.weigh

/-- Whether the byte is leading whitespace. -/
def indents (s : Scan) (b : UInt8) : Bool :=
  s.atLineStart && (b == Byte.space || b == Byte.tab)

/-- One turn of the loop at these bytes. -/
def turn (s : Scan) (b : UInt8) (rest : List UInt8) : Scan :=
  if s.indents b then { s with indent := s.indent + 1 }
  else if s.atLineStart ∧ b ≠ Byte.newline then (s.settle (b :: rest)).arm b
  else s.arm b

/-- The state and the bytes that are left after one turn. -/
def next (s : Scan) (b : UInt8) (rest : List UInt8) : Scan × List UInt8 :=
  ({ s.turn b rest with last := ((b :: rest).take (itemLength (b :: rest))).getLast? },
    (b :: rest).drop (itemLength (b :: rest)))

/-- The loop. Every turn consumes a byte, so as many turns as there are bytes suffice. -/
def loop : ℕ → Scan → List UInt8 → Scan
  | 0, s, _ => s
  | _, s, [] => s
  | turns + 1, s, b :: rest => loop turns (s.next b rest).1 (s.next b rest).2

/-- What is reported at the end of the file. -/
def finish (s : Scan) : Shape :=
  { s.shape with statementWeight := max s.shape.statementWeight s.weight }

end Scan

def scan (bytes : List UInt8) : Shape :=
  (Scan.start.loop bytes.length bytes).finish

/-- `measure`. -/
def measure (source : String) : Shape :=
  { scan (bytesOf source) with rawNesting := rawNesting (bytesOf source) }

/-! ### Arms -/

theorem forall_byte {p : UInt8 → Prop} (each : ∀ n : Fin 256, p (UInt8.ofNat n)) (b : UInt8) :
    p b := by
  have here := each ⟨b.toNat, b.toNat_lt⟩
  simpa using here

theorem classify_opener {b : UInt8} : classify b = .opener ↔ Byte.isOpener b = true := by
  revert b
  apply forall_byte
  decide +kernel

theorem classify_closer {b : UInt8} : classify b = .closer ↔ Byte.isCloser b = true := by
  revert b
  apply forall_byte
  decide +kernel

theorem isWord_eq (b : UInt8) :
    isWord b = (Byte.isAlphanumeric b || b == Byte.underscore || b == Byte.dot) := by
  revert b
  apply forall_byte
  decide +kernel

namespace Scan

/-- Two states count the same. -/
structure SameCounts (s s' : Scan) : Prop where
  depth : s'.depth = s.depth
  codeNesting : s'.shape.codeNesting = s.shape.codeNesting
  weight : s'.weight = s.weight
  statementWeight : s'.shape.statementWeight = s.shape.statementWeight

/-- Two states stand alike on their line. -/
structure SameLine (s s' : Scan) : Prop where
  chainAt : s'.chainAt = s.chainAt
  atLineStart : s'.atLineStart = s.atLineStart
  indent : s'.indent = s.indent
  blockChain : s'.shape.blockChain = s.shape.blockChain

theorem endStatement_line (s : Scan) (b : UInt8) : SameLine s (s.endStatement b) := by
  unfold endStatement
  split <;> exact ⟨rfl, rfl, rfl, rfl⟩

theorem endStatement_depth (s : Scan) (b : UInt8) : (s.endStatement b).depth = s.depth := by
  unfold endStatement
  split <;> rfl

theorem endStatement_codeNesting (s : Scan) (b : UInt8) :
    (s.endStatement b).shape.codeNesting = s.shape.codeNesting := by
  unfold endStatement
  split <;> rfl

/-- Inside brackets, and after a backslash, a statement goes on. -/
theorem endStatement_open {s : Scan} {b : UInt8}
    (goesOn : s.depth ≠ 0 ∨ (b = Byte.newline ∧ s.last = some Byte.backslash)) :
    s.endStatement b = s := by
  unfold endStatement
  rw [if_neg]
  rintro ⟨zero, cut⟩
  rcases goesOn with deep | joined
  · exact deep zero
  · exact cut joined

theorem endStatement_counts {s s' : Scan} (same : SameCounts s s') (last : s'.last = s.last)
    (b : UInt8) : SameCounts (s.endStatement b) (s'.endStatement b) := by
  obtain ⟨depth, nesting, weight, statement⟩ := same
  unfold endStatement
  by_cases ends : s.depth = 0 ∧ ¬ (b = Byte.newline ∧ s.last = some Byte.backslash)
  · have ends' : s'.depth = 0 ∧ ¬ (b = Byte.newline ∧ s'.last = some Byte.backslash) := by
      rw [depth, last]
      exact ends
    rw [if_pos ends, if_pos ends']
    exact ⟨depth, nesting, rfl, by simp only [statement, weight]⟩
  · have ends' : ¬ (s'.depth = 0 ∧ ¬ (b = Byte.newline ∧ s'.last = some Byte.backslash)) := by
      rw [depth, last]
      exact ends
    rw [if_neg ends, if_neg ends']
    exact ⟨depth, nesting, weight, statement⟩

theorem arm_counts {s s' : Scan} (same : SameCounts s s') (last : s'.last = s.last) (b : UInt8) :
    SameCounts (s.arm b) (s'.arm b) := by
  have ended := endStatement_counts same last b
  obtain ⟨depth, nesting, weight, statement⟩ := same
  cases kind : classify b with
  | newline =>
    simp only [arm, kind]
    exact ⟨ended.depth, ended.codeNesting, ended.weight, ended.statementWeight⟩
  | semicolon =>
    simp only [arm, kind]
    exact ended
  | comment | blank =>
    simp only [arm, kind]
    exact ⟨depth, nesting, weight, statement⟩
  | quote | word | other | opener | closer =>
    simp only [arm, kind, weigh]
    exact ⟨by simp only [depth], by simp only [depth, nesting], by simp only [weight], statement⟩

/-- Whatever a turn does about the line, it counts what its arm counts. -/
theorem turn_arm (s : Scan) (b : UInt8) (rest : List UInt8) :
    SameCounts (s.arm b) (s.turn b rest) := by
  unfold turn
  split_ifs with leading first
  · have blank : classify b = .blank := by
      simp only [indents, Bool.and_eq_true, Bool.or_eq_true, beq_iff_eq] at leading
      rcases leading.2 with rfl | rfl <;> rfl
    simp only [arm, blank]
    exact ⟨rfl, rfl, rfl, rfl⟩
  · have same : SameCounts s (s.settle (b :: rest)) := ⟨rfl, rfl, rfl, rfl⟩
    exact arm_counts same rfl b
  · exact ⟨rfl, rfl, rfl, rfl⟩

theorem arm_opener {s : Scan} {b : UInt8} (kind : classify b = .opener) :
    (s.arm b).depth = s.depth + 1 ∧
      (s.arm b).shape.codeNesting = max s.shape.codeNesting (s.depth + 1) := by
  simp [arm, kind]

theorem arm_closer {s : Scan} {b : UInt8} (kind : classify b = .closer) :
    (s.arm b).depth = s.depth - 1 ∧ (s.arm b).shape.codeNesting = s.shape.codeNesting := by
  simp [arm, kind, weigh]

theorem arm_plain {s : Scan} {b : UInt8} (opener : classify b ≠ .opener)
    (closer : classify b ≠ .closer) :
    (s.arm b).depth = s.depth ∧ (s.arm b).shape.codeNesting = s.shape.codeNesting := by
  cases kind : classify b <;>
    simp_all [arm, weigh, endStatement_depth, endStatement_codeNesting]

end Scan

/-! ### Turns -/

theorem skipString_pos (quote : UInt8) (bytes : List UInt8) : 0 < skipString quote bytes := by
  unfold skipString
  split <;> omega

theorem take_takeWhile (p : UInt8 → Bool) (l : List UInt8) :
    l.take (l.takeWhile p).length = l.takeWhile p :=
  (List.prefix_iff_eq_take.mp (List.takeWhile_prefix p)).symm

theorem drop_takeWhile (p : UInt8 → Bool) (l : List UInt8) :
    l.drop (l.takeWhile p).length = l.dropWhile p := by
  have whole : l.takeWhile p ++ l.drop (l.takeWhile p).length = l.takeWhile p ++ l.dropWhile p := by
    rw [List.takeWhile_append_dropWhile]
    nth_rewrite 1 [← take_takeWhile p l]
    exact List.take_append_drop _ l
  exact List.append_cancel_left whole

section ItemLength

variable {b : UInt8} (rest : List UInt8)

theorem itemLength_comment (kind : classify b = .comment) :
    itemLength (b :: rest) = ((b :: rest).takeWhile fun c => c != Byte.newline).length := by
  simp only [itemLength, kind]

theorem itemLength_quote (kind : classify b = .quote) :
    itemLength (b :: rest) = skipString b (b :: rest) := by
  simp only [itemLength, kind]

theorem itemLength_word (kind : classify b = .word) :
    itemLength (b :: rest) = ((b :: rest).takeWhile isWord).length := by
  simp only [itemLength, kind]

theorem itemLength_one (notComment : classify b ≠ .comment) (notQuote : classify b ≠ .quote)
    (notWord : classify b ≠ .word) : itemLength (b :: rest) = 1 := by
  unfold itemLength
  cases kind : classify b <;> simp_all

end ItemLength

theorem itemLength_pos (b : UInt8) (rest : List UInt8) : 0 < itemLength (b :: rest) := by
  cases kind : classify b with
  | comment =>
    have other : (b != Byte.newline) = true := by
      rw [bne_iff_ne]
      rintro rfl
      cases kind
    rw [itemLength_comment rest kind, List.takeWhile_cons, if_pos other]
    exact Nat.succ_pos _
  | quote =>
    rw [itemLength_quote rest kind]
    exact skipString_pos b (b :: rest)
  | word =>
    rw [itemLength_word rest kind, List.takeWhile_cons, if_pos (by simp [isWord, kind])]
    exact Nat.succ_pos _
  | opener | closer | newline | semicolon | blank | other =>
    rw [itemLength_one rest (by simp [kind]) (by simp [kind]) (by simp [kind])]
    exact Nat.one_pos

namespace Scan

/-- Turns of the loop. -/
inductive Goes : Scan → List UInt8 → Scan → List UInt8 → Prop
  | refl (s : Scan) (bytes : List UInt8) : Goes s bytes s bytes
  | turn {s s' : Scan} {b : UInt8} {rest bytes : List UInt8}
      (goes : Goes (s.next b rest).1 (s.next b rest).2 s' bytes) : Goes s (b :: rest) s' bytes

theorem Goes.trans {s s' s'' : Scan} {x y z : List UInt8} (first : Goes s x s' y)
    (second : Goes s' y s'' z) : Goes s x s'' z := by
  induction first with
  | refl s bytes => exact second
  | turn _ ih => exact .turn (ih second)

theorem loop_nil (turns : ℕ) (s : Scan) : loop turns s [] = s := by
  cases turns <;> rfl

theorem next_shorter (s : Scan) (b : UInt8) (rest : List UInt8) :
    (s.next b rest).2.length ≤ rest.length := by
  have := itemLength_pos b rest
  simp only [next, List.length_drop, List.length_cons]
  omega

/-- The loop gives what its turns reach, whatever the number of turns. -/
theorem loop_of_goes {s s' : Scan} {bytes : List UInt8} (goes : Goes s bytes s' [])
    {turns : ℕ} (enough : bytes.length ≤ turns) : loop turns s bytes = s' := by
  generalize done : ([] : List UInt8) = left at goes
  induction goes generalizing turns with
  | refl s bytes =>
    cases done
    exact loop_nil turns s
  | @turn s s' b rest bytes goes ih =>
    cases turns with
    | zero => simp at enough
    | succ turns =>
      have shorter := s.next_shorter b rest
      have room : rest.length ≤ turns := by simpa using enough
      exact ih (by omega) done

theorem scan_of_goes {bytes : List UInt8} {s : Scan} (goes : Goes start bytes s []) :
    scan bytes = s.finish := by
  unfold scan
  rw [loop_of_goes goes le_rfl]

end Scan

/-! ### Before the parser -/

/-- A pipeline that did not produce a graph. -/
structure PlanError where
  line : Option ℕ
  kind : PlanErrorKind
  deriving DecidableEq, Repr

/-- The bounds that a source meets before the parser sees it. -/
def checkShape (limits : Limits) (source : String) : Except PlanErrorKind Unit :=
  if limits.maxSourceBytes < (bytesOf source).length then
    .error (.exhausted (.sourceBytes limits.maxSourceBytes))
  else
    let shape := measure source
    if limits.maxNesting < shape.codeNesting ∨ limits.maxRawNesting < shape.rawNesting then
      .error (.exhausted (.nesting limits.maxNesting))
    else if limits.maxStatementWeight < shape.statementWeight then
      .error (.exhausted (.statementSize limits.maxStatementWeight))
    else if limits.maxBlockChain < shape.blockChain then
      .error (.exhausted (.blockChain limits.maxBlockChain))
    else if limits.maxIndentColumns < shape.indentColumns then
      .error (.exhausted (.indent limits.maxIndentColumns))
    else .ok ()

/-- `evaluate_on_this_stack`: what the language makes of a source is a parameter, and it is asked
only about a source that meets the bounds. -/
def evaluateOnThisStack (language : String → Limits → List String → Except PlanError Pipeline)
    (source : String) (limits : Limits) (actions : List String) : Except PlanError Pipeline :=
  match checkShape limits source with
  | .error kind => .error ⟨none, kind⟩
  | .ok _ => language source limits actions

theorem checkShape_ok {limits : Limits} {source : String}
    (passed : checkShape limits source = .ok ()) :
    (measure source).codeNesting ≤ limits.maxNesting ∧
      (measure source).rawNesting ≤ limits.maxRawNesting ∧
      (measure source).statementWeight ≤ limits.maxStatementWeight ∧
      (measure source).blockChain ≤ limits.maxBlockChain ∧
      (measure source).indentColumns ≤ limits.maxIndentColumns := by
  unfold checkShape at passed
  dsimp only at passed
  split_ifs at passed with size nesting weight chain indent
  omega

end HullCi.Plan
