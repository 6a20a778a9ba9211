/-
**What a step report says of the job's output.**

The output of a step is captured, masked, cut to its last characters, decoded and sanitized to one
line. Masking looks for whole values in the bytes; sanitizing then takes characters out, and what
stood on both sides of them comes together. The line of a command that never started is quoted from
the output as it was.

* `runInner` — the detail of the report, on every path that a delivered step can take.
* `length_detail` — it has no more than 200 characters after the label of its kind.
* `detail_interleaved` — a value printed with an invisible character behind each of its own is the
  detail.
* `quoted_in_detail` — a line that the runtime seems to say is quoted unmasked.
* `never_reaches_iff` — no output puts a value into the detail exactly when every value is longer
  than a summary.
-/

import HullCi.Node.Capture
import HullCi.Proto.Lines
import HullCi.Secrets.Masking

namespace HullCi.Node

open HullCi.Proto HullCi.Secrets

/-! ### Decoding -/

/-- A lead byte: how many bytes are to follow, and the range of the first of them. -/
def utf8Lead (b : UInt8) : Option (ℕ × UInt8 × UInt8) :=
  if 0xc2 ≤ b ∧ b ≤ 0xdf then some (1, 0x80, 0xbf)
  else if b = 0xe0 then some (2, 0xa0, 0xbf)
  else if b = 0xed then some (2, 0x80, 0x9f)
  else if 0xe1 ≤ b ∧ b ≤ 0xef then some (2, 0x80, 0xbf)
  else if b = 0xf0 then some (3, 0x90, 0xbf)
  else if 0xf1 ≤ b ∧ b ≤ 0xf3 then some (3, 0x80, 0xbf)
  else if b = 0xf4 then some (3, 0x80, 0x8f)
  else none

/-- How many of the bytes that are to follow are there. -/
def utf8Follow : ℕ × UInt8 × UInt8 → Bytes → ℕ
  | (n, low, high), c :: rest =>
    if low ≤ c ∧ c ≤ high then
      ((rest.take (n - 1)).takeWhile fun c => 0x80 ≤ c && c ≤ 0xbf).length + 1
    else 0
  | _, [] => 0

/-- The character that starts here and how many bytes after the first belong to it; what is not
UTF-8 is the replacement character. -/
def utf8Char (b : UInt8) (rest : Bytes) : Char × ℕ :=
  if b < 0x80 then (Char.ofNat b.toNat, 0)
  else
    match utf8Lead b with
    | none => ('\uFFFD', 0)
    | some lead =>
      let taken := utf8Follow lead rest
      if taken = lead.1 then
        (Char.ofNat ((rest.take taken).foldl (fun code c => code * 64 + c.toNat % 64)
          (b.toNat % 2 ^ (6 - taken))), taken)
      else ('\uFFFD', taken)

/-- The decoding, with so many bytes of a character still to be passed. -/
def lossyFrom : ℕ → Bytes → List Char
  | _, [] => []
  | skip + 1, _ :: rest => lossyFrom skip rest
  | 0, b :: rest => (utf8Char b rest).1 :: lossyFrom (utf8Char b rest).2 rest

/-- `String::from_utf8_lossy`. -/
def fromUtf8Lossy (bytes : Bytes) : String :=
  String.ofList (lossyFrom 0 bytes)

/-! ### The captured output as text -/

theorem default_bytes_fit : 50 * 1024 * 1024 < 2 ^ 64 := by
  decide

theorem default_lines_fit : 500000 < 2 ^ 64 := by
  decide

/-- `OutputCaps::default`. -/
def OutputCaps.default : OutputCaps where
  bytesFit := default_bytes_fit
  linesFit := default_lines_fit

namespace CapturedOutput

def empty (caps : OutputCaps) : CapturedOutput where
  bytes := []
  droppedBytes := 0
  droppedLines := 0
  caps := caps

def marker (c : CapturedOutput) : Option String :=
  if 0 < c.droppedBytes then
    some ("[hull-ci] output truncated: dropped " ++ toString c.droppedBytes ++ " bytes / " ++
      toString c.droppedLines ++ " lines to stay under the " ++ toString c.caps.maxBytes ++
      " byte / " ++ toString c.caps.maxLines ++ " line cap (spec §14.4); the tail follows.")
  else none

def text (c : CapturedOutput) : String :=
  match c.marker with
  | some m => m ++ "\n" ++ fromUtf8Lossy c.bytes
  | none => fromUtf8Lossy c.bytes

def redactWith (c : CapturedOutput) (f : Bytes → Bytes) : CapturedOutput :=
  { c with bytes := f c.bytes }

def tailText (c : CapturedOutput) (maxChars : ℕ) : String :=
  let body := (fromUtf8Lossy c.bytes).toList
  String.ofList (body.drop (body.length - maxChars))

end CapturedOutput

/-! ### The step -/

inductive NodeErrorKind where
  | noTests
  | timeout
  | infra
  deriving DecidableEq, Repr

/-- What the detail of an errored step begins with. -/
def NodeErrorKind.label : NodeErrorKind → String
  | .noTests => "no_tests: "
  | .timeout => "timeout: "
  | .infra => "infra: "

inductive ExecStatus where
  | exited (code : ℤ)
  | signalled (signal : ℤ)
  | timedOut
  deriving DecidableEq, Repr

/-- The status as its debug text. -/
def ExecStatus.debug : ExecStatus → String
  | .exited code => "Exited(" ++ toString code ++ ")"
  | .signalled signal => "Signalled(" ++ toString signal ++ ")"
  | .timedOut => "TimedOut"

/-- `SandboxError`: its kinds that the report tells apart, the rest as they are displayed. -/
inductive SandboxFailure where
  | reused (displayed : String)
  | crossJobReuse (displayed : String)
  | runtime (why : String)
  | other (displayed : String)

def SandboxFailure.display : SandboxFailure → String
  | .reused displayed | .crossJobReuse displayed | .other displayed => displayed
  | .runtime why => "sandbox runtime failed: " ++ why

/-- `str::lines`. -/
def linesOf (text : String) : List (List Char) :=
  let pieces := text.toList.splitOn '\n'
  let pieces := if pieces.getLast? = some [] then pieces.dropLast else pieces
  pieces.map fun line => if line.getLast? = some '\r' then line.dropLast else line

/-- `exec` did not start the command. -/
def execNeverStarted (status : ExecStatus) (output : String) : Option String :=
  if status = .exited 126 ∨ status = .exited 127 then
    ((linesOf output).find? fun l =>
      "OCI runtime exec failed".toList <:+: l ∨ "exec failed:".toList <:+: l).map
      fun line => "the sandbox could not start the command (" ++ status.debug ++
        "); this is an infrastructure failure and not a test result. Runtime said: " ++
        String.ofList line
  else none

/-- All that the node does not decide about one run of a step. -/
structure StepRun where
  warm : Bool
  caps : OutputCaps
  chunks : List Bytes
  status : ExecStatus
  /-- the seconds it took, with one decimal -/
  elapsed : String
  timeoutSecs : ℕ
  /-- why there was no sandbox -/
  notSpawned : Option SandboxFailure := none
  /-- why the command could not be run to its end -/
  broken : Option SandboxFailure := none
  collectFails : Bool := false

/-- `exec`: how the command ended, and the capture it leaves to `collect`. -/
def StepRun.exec (r : StepRun) : Except SandboxFailure ExecStatus × Option CapturedOutput :=
  match r.broken with
  | some e => (.error e, none)
  | none =>
    let captured := (captured r.caps r.chunks).finish
    match (if r.warm then execNeverStarted r.status captured.text else none) with
    | some why => (.error (.runtime why), some captured)
    | none => (.ok r.status, some captured)

def StepRun.collect (r : StepRun) : CapturedOutput :=
  if r.collectFails then .empty r.caps else r.exec.2.getD (.empty .default)

/-- `report`: the detail, sanitized. -/
def report (detail : String) : String :=
  sanitizeSummary detail summaryMaxChars

def errored (kind : NodeErrorKind) (detail : String) : String :=
  kind.label ++ report detail

def summaryOf (captured : CapturedOutput) (fallback : String) : String :=
  let tail := sanitizeSummary (captured.tailText (summaryMaxChars * 2)) summaryMaxChars
  if tail = "" then fallback else tail

/-- `run_inner`, from the delivery on: the detail of its report. -/
def runInner (masker : Masker) (argv : List String) (r : StepRun) : String :=
  match r.notSpawned with
  | some e => errored .infra ("sandbox spawn failed: " ++ e.display)
  | none =>
    let captured := r.collect.redactWith masker.maskBytes
    let command := "`" ++ " ".intercalate argv ++ "`"
    match r.exec.1 with
    | .error (.reused _) | .error (.crossJobReuse _) =>
      errored .infra "sandbox reuse refused (§14.1)"
    | .error e => errored .infra ("exec failed: " ++ e.display)
    | .ok (.exited code) =>
      if code = 0 then
        report (summaryOf captured (command ++ " passed in " ++ r.elapsed ++ "s"))
      else report (summaryOf captured (command ++ " failed (exit " ++ toString code ++ ")"))
    | .ok (.signalled signal) =>
      report (summaryOf captured (command ++ " was killed by signal " ++ toString signal))
    | .ok .timedOut =>
      errored .timeout ("step exceeded its " ++ toString r.timeoutSecs ++ "s wall clock")

/-! ### What is to hold -/

/-- The characters of a value that is ASCII. -/
def chars (value : Bytes) : List Char :=
  value.map fun b => Char.ofNat b.toNat

/-- A visible ASCII character. -/
def Visible (b : UInt8) : Prop :=
  0x21 ≤ b.toNat ∧ b.toNat ≤ 0x7e

/-- A command and the values delivered to it: each is accepted by the masker, of visible ASCII
characters, and in no argument of the command. -/
structure Delivered where
  argv : List String
  values : List Bytes
  accepted : ∀ v ∈ values, minMaskableLen ≤ v.length
  visible : ∀ v ∈ values, ∀ b ∈ v, Visible b
  apart : ∀ v ∈ values, ∀ arg ∈ argv, ¬ chars v <:+: arg.toList

/-- No value is in the detail, however the step runs and whatever it prints. -/
def NeverReaches (d : Delivered) : Prop :=
  ∀ r : StepRun, ∀ v ∈ d.values,
    ¬ chars v <:+: (runInner (registered d.values) d.argv r).toList

/-! ### Values and characters -/

/-- What is known of a visible ASCII character. -/
structure Solid (c : Char) : Prop where
  control : isControl c = false
  hidden : isInvisibleFormatting c = false
  blank : isWhitespace c = false
  flat : flattened c = c
  escape : (c.val == 0x1b) = false

theorem solid_ofNat : ∀ n < 127, 0x21 ≤ n → Solid (Char.ofNat n) := by
  have all : ∀ n < 127, 0x21 ≤ n → isControl (Char.ofNat n) = false ∧
      isInvisibleFormatting (Char.ofNat n) = false ∧ isWhitespace (Char.ofNat n) = false ∧
      flattened (Char.ofNat n) = Char.ofNat n ∧ ((Char.ofNat n).val == 0x1b) = false := by
    decide
  intro n below above
  obtain ⟨control, hidden, blank, flat, escape⟩ := all n below above
  exact ⟨control, hidden, blank, flat, escape⟩

theorem solid_chars {value : Bytes} (visible : ∀ b ∈ value, Visible b) :
    ∀ c ∈ chars value, Solid c := by
  intro c mem
  obtain ⟨b, there, rfl⟩ := List.mem_map.mp mem
  obtain ⟨low, high⟩ := visible b there
  exact solid_ofNat _ (by omega) low

theorem space_not_mem {value : Bytes} (visible : ∀ b ∈ value, Visible b) :
    ' ' ∉ chars value := by
  intro mem
  exact absurd (solid_chars visible _ mem).blank (by decide)

theorem infix_space {p front back : List Char} (solid : ' ' ∉ p)
    (found : p <:+: front ++ ' ' :: back) : p <:+: front ∨ p <:+: back := by
  obtain ⟨s, -, ends, starts⟩ | later := Base.infix_append_cases found
  · obtain inner | ⟨t, rfl⟩ := Base.prefix_append_cases starts
    · exact .inl (inner.isInfix.trans ends.isInfix)
    · rw [List.prefix_append_right_inj] at starts
      cases t with
      | nil =>
        rw [List.append_nil]
        exact .inl ends.isInfix
      | cons c t =>
        obtain ⟨rfl, -⟩ := List.cons_prefix_cons.mp starts
        exact absurd (List.mem_append_right _ List.mem_cons_self) solid
  · obtain here | later := List.infix_cons_iff.mp later
    · cases p with
      | nil => exact .inl List.nil_infix
      | cons c p =>
        obtain ⟨rfl, -⟩ := List.cons_prefix_cons.mp here
        exact absurd List.mem_cons_self solid
    · exact .inr later

/-! ### The length of the detail -/

theorem length_report (detail : String) : (report detail).toList.length ≤ summaryMaxChars :=
  sanitizeSummary_length detail summaryMaxChars

theorem runInner_cases (masker : Masker) (argv : List String) (r : StepRun) :
    (∃ detail, runInner masker argv r = report detail) ∨
      ∃ kind detail, runInner masker argv r = errored kind detail := by
  unfold runInner
  split
  · exact .inr ⟨_, _, rfl⟩
  · dsimp only
    split
    · exact .inr ⟨_, _, rfl⟩
    · exact .inr ⟨_, _, rfl⟩
    · exact .inr ⟨_, _, rfl⟩
    · split_ifs
      · exact .inl ⟨_, rfl⟩
      · exact .inl ⟨_, rfl⟩
    · exact .inl ⟨_, rfl⟩
    · exact .inr ⟨_, _, rfl⟩

theorem not_infix_of_long {value : Bytes} (visible : ∀ b ∈ value, Visible b)
    (long : summaryMaxChars < value.length) (masker : Masker) (argv : List String) (r : StepRun) :
    ¬ chars value <:+: (runInner masker argv r).toList := by
  intro found
  have size : (chars value).length = value.length := List.length_map _
  have no_room : ∀ l : List Char, l.length ≤ summaryMaxChars → ¬ chars value <:+: l := by
    intro l fits inner
    have bound := inner.length_le
    omega
  obtain ⟨detail, same⟩ | ⟨kind, detail, same⟩ := runInner_cases masker argv r
  · rw [same] at found
    exact no_room _ (length_report detail) found
  · rw [same, errored, String.toList_append] at found
    obtain ⟨word, short, spelled⟩ : ∃ word : List Char, word.length ≤ summaryMaxChars ∧
        kind.label.toList = word ++ [' '] := by
      cases kind
      · exact ⟨"no_tests:".toList, by decide, rfl⟩
      · exact ⟨"timeout:".toList, by decide, rfl⟩
      · exact ⟨"infra:".toList, by decide, rfl⟩
    rw [spelled, List.append_assoc, List.singleton_append] at found
    obtain before | after := infix_space (space_not_mem visible) found
    · exact no_room _ short before
    · exact no_room _ (length_report detail) after

/-! ### A value between invisible characters -/

/-- A zero-width space. -/
def zeroWidth : Char := '\u200B'

/-- The value with a zero-width space behind each of its characters. -/
def interleaved (value : Bytes) : Bytes :=
  value.flatMap fun b => [b, 0xe2, 0x80, 0x8b]

theorem utf8Char_ascii {b : UInt8} (ascii : b < 0x80) (rest : Bytes) :
    utf8Char b rest = (Char.ofNat b.toNat, 0) := by
  unfold utf8Char
  rw [if_pos ascii]

theorem utf8Char_zeroWidth (rest : Bytes) :
    utf8Char 0xe2 (0x80 :: 0x8b :: rest) = (zeroWidth, 2) := by
  have lead : utf8Lead 0xe2 = some (2, 0x80, 0xbf) := by decide
  have follow : utf8Follow (2, 0x80, 0xbf) (0x80 :: 0x8b :: rest) = 2 := by
    unfold utf8Follow
    dsimp only
    rw [if_pos (by decide), List.take_succ_cons, List.take_zero]
    rfl
  unfold utf8Char
  rw [if_neg (by decide), lead]
  dsimp only
  rw [follow, if_pos rfl, List.take_succ_cons, List.take_succ_cons, List.take_zero]
  rfl

theorem Visible.ascii {b : UInt8} (visible : Visible b) : b < 0x80 := by
  rw [UInt8.lt_iff_toNat_lt]
  exact Nat.lt_of_le_of_lt visible.2 (by decide)

theorem lossy_interleaved {value : Bytes} (visible : ∀ b ∈ value, Visible b) :
    lossyFrom 0 (interleaved value) = (chars value).flatMap fun c => [c, zeroWidth] := by
  induction value with
  | nil => rfl
  | cons b value ih =>
    have ascii := (visible b List.mem_cons_self).ascii
    have later := ih fun b' mem => visible b' (List.mem_cons_of_mem _ mem)
    show lossyFrom 0 (b :: 0xe2 :: 0x80 :: 0x8b :: interleaved value) =
      Char.ofNat b.toNat :: zeroWidth :: (chars value).flatMap fun c => [c, zeroWidth]
    rw [lossyFrom, utf8Char_ascii ascii, lossyFrom, utf8Char_zeroWidth, lossyFrom, lossyFrom,
      later]

/-- Two visible bytes never stand next to each other in it. -/
theorem pair_interleaved (value : Bytes) {x y : UInt8} (low : x < 0x80) (low' : y < 0x80) :
    ¬ [x, y] <:+: interleaved value := by
  have high : ∀ {b : UInt8}, b < 0x80 → b ≠ 0xe2 ∧ b ≠ 0x80 ∧ b ≠ 0x8b := by
    intro b less
    refine ⟨?_, ?_, ?_⟩
    all_goals rintro rfl; exact absurd less (by decide)
  induction value with
  | nil => exact fun found => absurd (List.infix_nil.mp found) nofun
  | cons b value ih =>
    intro found
    replace found : [x, y] <:+: b :: 0xe2 :: 0x80 :: 0x8b :: interleaved value := found
    rw [List.infix_cons_iff, List.infix_cons_iff, List.infix_cons_iff, List.infix_cons_iff]
      at found
    simp only [List.cons_prefix_cons] at found
    obtain ⟨-, same, -⟩ | ⟨same, -⟩ | ⟨same, -⟩ | ⟨same, -⟩ | later := found
    · exact (high low').1 same
    · exact (high low).1 same
    · exact (high low).2.1 same
    · exact (high low).2.2 same
    · exact ih later

theorem not_infix_interleaved {value other : Bytes} (visible : ∀ b ∈ other, Visible b)
    (long : minMaskableLen ≤ other.length) : ¬ other <:+: interleaved value := by
  intro found
  match other, visible, long, found with
  | x :: y :: rest, visible, _, found =>
    refine pair_interleaved value (visible x (by simp)).ascii (visible y (by simp)).ascii ?_
    exact (List.prefix_append [x, y] rest).isInfix.trans found

theorem mask_interleaved (d : Delivered) (value : Bytes) :
    (registered d.values).maskBytes (interleaved value) = interleaved value := by
  refine foldl_free fun other mem => ?_
  obtain ⟨front, back, split, -⟩ := mem_registered.mp mem
  have here : other ∈ d.values := by
    rw [split]
    exact List.mem_append_right _ List.mem_cons_self
  exact not_infix_interleaved (d.visible other here) (d.accepted other here)

theorem sanitizeLoop_interleaved {l : List Char} (solid : ∀ c ∈ l, Solid c) {room : ℕ}
    (fits : l.length ≤ room) (spaced : Bool) :
    sanitizeLoop .outside spaced room (l.flatMap fun c => [c, zeroWidth]) = l := by
  induction l generalizing room spaced with
  | nil => rfl
  | cons c l ih =>
    obtain ⟨control, hidden, blank, flat, escape⟩ := solid c List.mem_cons_self
    have later := fun (room' : ℕ) (fits' : l.length ≤ room') =>
      ih (fun c' mem => solid c' (List.mem_cons_of_mem _ mem)) fits'
    have other : c ≠ ' ' := by
      rintro rfl
      exact absurd blank (by decide)
    match room, fits with
    | room + 1, fits =>
      have rest := later room (Nat.le_of_succ_le_succ fits) false
      have passed : sanitizeLoop .outside false room (zeroWidth ::
          l.flatMap fun c => [c, zeroWidth]) = l := by
        unfold sanitizeLoop
        have hidden : isInvisibleFormatting (flattened zeroWidth) = true := by decide
        have plain : (zeroWidth.val == 0x1b) = false := by decide
        simp only [reduceCtorEq, false_and, if_false, plain, Bool.false_eq_true, hidden, if_true,
          rest]
      show sanitizeLoop .outside spaced (room + 1) (c :: zeroWidth ::
        l.flatMap fun c => [c, zeroWidth]) = c :: l
      unfold sanitizeLoop
      simp only [reduceCtorEq, false_and, if_false, escape, Bool.false_eq_true, flat, hidden,
        other, decide_false, passed]

theorem length_interleaved (value : Bytes) :
    (interleaved value).length = 4 * value.length := by
  induction value with
  | nil => rfl
  | cons b value ih =>
    show (interleaved value).length + 4 = 4 * (value.length + 1)
    omega

theorem newline_not_mem {value : Bytes} (visible : ∀ b ∈ value, Visible b) :
    newline ∉ interleaved value := by
  intro mem
  obtain ⟨b, there, here⟩ := List.mem_flatMap.mp mem
  simp only [List.mem_cons, List.not_mem_nil, or_false] at here
  obtain same | same | same | same := here
  · have low := (visible b there).1
    rw [← same] at low
    exact absurd low (by decide)
  all_goals exact absurd same (by decide)

theorem finish_short {bytes : Bytes} (short : bytes.length ≤ 50 * 1024 * 1024)
    (line : newline ∉ bytes) : (captured .default [bytes]).finish.bytes = bytes := by
  have none : linesIn bytes 0 bytes.length = 0 := by
    unfold linesIn countNewlines
    rw [List.take_length, List.drop_zero, List.count_eq_zero]
    exact line
  have first : lineStart .default bytes bytes.length ≤ 0 :=
    lineStart_le_iff.mpr (by rw [none]; exact Nat.zero_le _)
  have all : start .default bytes bytes.length = 0 := by
    unfold start
    rw [if_neg (show ¬ OutputCaps.default.maxBytes < bytes.length from Nat.not_lt.mpr short)]
    omega
  rw [finish_whole, all]
  rfl

/-- The step prints this value, with the invisible characters, and passes. -/
def printing (value : Bytes) : StepRun where
  warm := false
  caps := .default
  chunks := [interleaved value]
  status := .exited 0
  elapsed := "0.1"
  timeoutSecs := 60

/-- **The detail is the value**: masking does not see it, and sanitizing puts it together. -/
theorem detail_interleaved (d : Delivered) {value : Bytes} (mem : value ∈ d.values)
    (short : value.length ≤ summaryMaxChars) :
    (runInner (registered d.values) d.argv (printing value)).toList = chars value := by
  have visible := d.visible value mem
  have solid := solid_chars visible
  have size : (chars value).length = value.length := List.length_map _
  have bytes : (captured .default [interleaved value]).finish.bytes = interleaved value := by
    refine finish_short ?_ (newline_not_mem visible)
    rw [length_interleaved]
    unfold summaryMaxChars at short
    omega
  -- The whole output is in the tail, and sanitizing leaves the value of it.
  have tail : ∀ c : CapturedOutput, c.bytes = interleaved value →
      c.tailText (summaryMaxChars * 2) =
        String.ofList ((chars value).flatMap fun c => [c, zeroWidth]) := by
    intro c same
    unfold CapturedOutput.tailText fromUtf8Lossy
    rw [same, lossy_interleaved visible, String.toList_ofList]
    have all : ((chars value).flatMap fun c => [c, zeroWidth]).length = 2 * value.length := by
      rw [List.length_flatMap]
      simp [size, Nat.mul_comm]
    dsimp only
    rw [all, Nat.sub_eq_zero_of_le (by omega), List.drop_zero]
  have tidy : sanitizeSummary (String.ofList ((chars value).flatMap fun c => [c, zeroWidth]))
      summaryMaxChars = String.ofList (chars value) := by
    unfold sanitizeSummary
    rw [String.toList_ofList, sanitizeLoop_interleaved solid (by omega)]
    refine trim_eq_self (fun c first => ?_) fun c last => ?_
    · rw [String.toList_ofList] at first
      exact (solid c (List.mem_of_mem_head? first)).blank
    · rw [String.toList_ofList] at last
      exact (solid c (List.mem_of_mem_getLast? last)).blank
  have filled : String.ofList (chars value) ≠ "" := by
    intro none
    have empty := congrArg String.toList none
    rw [String.toList_ofList] at empty
    have long := d.accepted value mem
    rw [← size, empty] at long
    exact absurd long (by decide)
  have run : runInner (registered d.values) d.argv (printing value) =
      report (summaryOf (((captured .default [interleaved value]).finish).redactWith
        (registered d.values).maskBytes)
          ("`" ++ " ".intercalate d.argv ++ "`" ++ " passed in " ++ "0.1" ++ "s")) := rfl
  rw [run]
  unfold summaryOf
  rw [tail _ (by show (registered d.values).maskBytes _ = _; rw [bytes, mask_interleaved]), tidy]
  dsimp only
  rw [if_neg filled, report, ← tidy, sanitizeSummary_again _ le_rfl, tidy, String.toList_ofList]

/-! ### Texts that sanitizing does not join -/

/-- Nothing in the text is taken out of the middle of a word. -/
def Whole (text : List Char) : Prop :=
  ∀ c ∈ text, (c.val == 0x1b) = false ∧ isInvisibleFormatting c = false

theorem whole_of_all {text : List Char}
    (every : text.all (fun c => !(c.val == 0x1b) && !isInvisibleFormatting c) = true) :
    Whole text := by
  intro c mem
  simpa using List.all_eq_true.mp every c mem

theorem flattened_cases (c : Char) : flattened c = ' ' ∨ flattened c = c := by
  unfold flattened
  split_ifs
  · exact .inl rfl
  · exact .inr rfl

theorem sanitizeLoop_whole {c : Char} (escape : (c.val == 0x1b) = false)
    (shown : isInvisibleFormatting c = false) (spaced : Bool) (room : ℕ) (rest : List Char) :
    sanitizeLoop .outside spaced room (c :: rest) =
      if flattened c = ' ' ∧ spaced = true then sanitizeLoop .outside spaced room rest
      else if room = 0 then []
      else flattened c :: sanitizeLoop .outside (flattened c = ' ') (room - 1) rest := by
  have visible : isInvisibleFormatting (flattened c) = false := by
    obtain same | same := flattened_cases c
    · rw [same]
      decide
    · rw [same]
      exact shown
  conv_lhs => unfold sanitizeLoop
  simp only [reduceCtorEq, false_and, if_false, escape, Bool.false_eq_true, visible]
  cases room with
  | zero => rfl
  | succ room => rfl

theorem prefix_sanitizeLoop {p l : List Char} (solid : ∀ c ∈ p, Solid c) (whole : Whole l)
    {room : ℕ} (found : p <+: sanitizeLoop .outside false room l) : p <+: l := by
  induction l generalizing p room with
  | nil => exact found
  | cons c l ih =>
    cases p with
    | nil => exact List.nil_prefix
    | cons x p =>
      obtain ⟨escape, shown⟩ := whole c List.mem_cons_self
      rw [sanitizeLoop_whole escape shown, if_neg (fun both => Bool.false_ne_true both.2)] at found
      cases room with
      | zero =>
        rw [if_pos rfl] at found
        exact absurd (List.prefix_nil.mp found) nofun
      | succ room =>
        rw [if_neg room.succ_ne_zero, Nat.add_sub_cancel] at found
        obtain ⟨same, later⟩ := List.cons_prefix_cons.mp found
        have other : flattened c ≠ ' ' := by
          intro space
          have blank := (solid x List.mem_cons_self).blank
          rw [same, space] at blank
          exact absurd blank (by decide)
        rw [decide_eq_false other] at later
        rw [same, (flattened_cases c).resolve_left other, List.prefix_cons_inj]
        exact ih (fun c' mem => solid c' (List.mem_cons_of_mem _ mem))
          (fun c' mem => whole c' (List.mem_cons_of_mem _ mem)) later

theorem infix_sanitizeLoop {p l : List Char} (solid : ∀ c ∈ p, Solid c) (whole : Whole l)
    {spaced : Bool} {room : ℕ} (found : p <:+: sanitizeLoop .outside spaced room l) :
    p <:+: l := by
  induction l generalizing spaced room with
  | nil => exact found
  | cons c l ih =>
    have later := fun (spaced : Bool) (room : ℕ)
        (found : p <:+: sanitizeLoop .outside spaced room l) =>
      (ih (fun c' mem => whole c' (List.mem_cons_of_mem _ mem)) found).trans
        (List.suffix_cons c l).isInfix
    obtain ⟨escape, shown⟩ := whole c List.mem_cons_self
    have start := found
    rw [sanitizeLoop_whole escape shown] at found
    by_cases skipped : flattened c = ' ' ∧ spaced = true
    · rw [if_pos skipped] at found
      exact later _ _ found
    · rw [if_neg skipped] at found
      cases room with
      | zero =>
        rw [if_pos rfl] at found
        rw [List.infix_nil.mp found]
        exact List.nil_infix
      | succ room =>
        rw [if_neg room.succ_ne_zero, Nat.add_sub_cancel] at found
        obtain here | there := List.infix_cons_iff.mp found
        · -- It begins here: as it would with nothing written before.
          have begins : p <+: sanitizeLoop .outside false (room + 1) (c :: l) := by
            rw [sanitizeLoop_whole escape shown,
              if_neg (fun both => Bool.false_ne_true both.2), if_neg room.succ_ne_zero,
              Nat.add_sub_cancel]
            exact here
          exact (prefix_sanitizeLoop solid whole begins).isInfix
        · exact later _ _ there

theorem infix_report {value : Bytes} (visible : ∀ b ∈ value, Visible b) {text : String}
    (whole : Whole text.toList) (found : chars value <:+: (report text).toList) :
    chars value <:+: text.toList := by
  have inner := found.trans ( trim_infix _)
  rw [String.toList_ofList] at inner
  exact infix_sanitizeLoop (solid_chars visible) whole inner

/-! ### Values in decoded bytes -/

theorem le_foldl_code (l : Bytes) (code : ℕ) :
    code ≤ l.foldl (fun code c => code * 64 + c.toNat % 64) code := by
  induction l generalizing code with
  | nil => exact Nat.le_refl _
  | cons c l ih =>
    refine Nat.le_trans ?_ (ih _)
    dsimp only
    omega

/-- The bits of a lead byte, or the range of what follows it, leave out what is shorter. -/
theorem utf8Lead_cases {b low high : UInt8} {n : ℕ} (lead : utf8Lead b = some (n, low, high)) :
    n = 1 ∧ 2 ≤ b.toNat % 32 ∨
      n = 2 ∧ (1 ≤ b.toNat % 16 ∨ low.toNat = 0xa0 ∧ high.toNat = 0xbf) ∨
      n = 3 ∧ (1 ≤ b.toNat % 8 ∨ low.toNat = 0x90 ∧ high.toNat = 0xbf) := by
  unfold utf8Lead at lead
  split_ifs at lead with two e0 ed three f0 four f4
  all_goals cases lead
  · rw [UInt8.le_iff_toNat_le, UInt8.le_iff_toNat_le] at two
    obtain ⟨above, below⟩ := two
    change 0xc2 ≤ _ at above
    change _ ≤ 0xdf at below
    exact .inl ⟨rfl, by omega⟩
  · exact .inr (.inl ⟨rfl, .inr ⟨rfl, rfl⟩⟩)
  · rw [ed]
    exact .inr (.inl ⟨rfl, .inl (by decide)⟩)
  · rw [UInt8.le_iff_toNat_le, UInt8.le_iff_toNat_le] at three
    obtain ⟨above, below⟩ := three
    change 0xe1 ≤ _ at above
    change _ ≤ 0xef at below
    exact .inr (.inl ⟨rfl, .inl (by omega)⟩)
  · exact .inr (.inr ⟨rfl, .inr ⟨rfl, rfl⟩⟩)
  · rw [UInt8.le_iff_toNat_le, UInt8.le_iff_toNat_le] at four
    obtain ⟨above, below⟩ := four
    change 0xf1 ≤ _ at above
    change _ ≤ 0xf3 at below
    exact .inr (.inr ⟨rfl, .inl (by omega)⟩)
  · rw [f4]
    exact .inr (.inr ⟨rfl, .inl (by decide)⟩)

/-- A lead byte and what is to follow make no ASCII character. -/
theorem code_ge {b low high c : UInt8} {n : ℕ} {rest : Bytes}
    (lead : utf8Lead b = some (n, low, high)) (least : low ≤ c) (most : c ≤ high)
    (more : n - 1 ≤ rest.length) :
    0x80 ≤ (c :: rest.take (n - 1)).foldl (fun code c => code * 64 + c.toNat % 64)
      (b.toNat % 2 ^ (6 - n)) := by
  rw [UInt8.le_iff_toNat_le] at least most
  have later : ∀ {x : UInt8} {l : Bytes} {code : ℕ}, 0x80 ≤ code * 64 →
      0x80 ≤ (x :: l).foldl (fun code c => code * 64 + c.toNat % 64) code := by
    intro x l code large
    refine Nat.le_trans ?_ (le_foldl_code l _)
    dsimp only
    omega
  rw [List.foldl_cons]
  obtain ⟨rfl, bits⟩ | ⟨rfl, bits⟩ | ⟨rfl, bits⟩ := utf8Lead_cases lead
  · refine Nat.le_trans ?_ (le_foldl_code _ _)
    change _ ≤ b.toNat % 32 * 64 + c.toNat % 64
    omega
  · cases rest with
    | nil => cases more
    | cons x rest =>
      refine later ?_
      change _ ≤ (b.toNat % 16 * 64 + c.toNat % 64) * 64
      omega
  · cases rest with
    | nil => cases more
    | cons x rest =>
      refine later ?_
      change _ ≤ (b.toNat % 8 * 64 + c.toNat % 64) * 64
      omega

theorem toNat_ofNat_high {code : ℕ} (high : 0x80 ≤ code) :
    (Char.ofNat code).toNat = 0 ∨ 0x80 ≤ (Char.ofNat code).toNat := by
  by_cases valid : code.isValidChar
  · right
    unfold Char.ofNat
    rw [dif_pos valid]
    exact high
  · left
    unfold Char.ofNat
    rw [dif_neg valid]
    rfl

/-- What begins with a byte that is not ASCII is no ASCII character, or the null character. -/
theorem utf8Char_high {b : UInt8} (high : ¬ b < 0x80) (rest : Bytes) :
    (utf8Char b rest).1.toNat = 0 ∨ 0x80 ≤ (utf8Char b rest).1.toNat := by
  have unknown : 0x80 ≤ '\uFFFD'.toNat := by decide
  unfold utf8Char
  rw [if_neg high]
  cases lead : utf8Lead b with
  | none => exact .inr unknown
  | some found =>
    obtain ⟨n, low, most⟩ := found
    have some' : 1 ≤ n := by
      obtain ⟨rfl, -⟩ | ⟨rfl, -⟩ | ⟨rfl, -⟩ := utf8Lead_cases lead
      all_goals decide
    dsimp only
    split_ifs with all
    · rw [all]
      refine toNat_ofNat_high ?_
      cases rest with
      | nil =>
        unfold utf8Follow at all
        dsimp only at all
        omega
      | cons c rest =>
        unfold utf8Follow at all
        dsimp only at all
        split_ifs at all with inside
        · have bound := (List.takeWhile_sublist (fun c => 0x80 ≤ c && c ≤ 0xbf)
            (l := rest.take (n - 1))).length_le
          rw [List.length_take] at bound
          obtain ⟨m, rfl⟩ := Nat.exists_eq_add_of_le' some'
          exact code_ge lead inside.1 inside.2 (by omega)
        · omega
    · exact .inr unknown

theorem chars_visible {b x : UInt8} {rest : Bytes} (visible : Visible b)
    (same : (utf8Char x rest).1 = Char.ofNat b.toNat) : x = b ∧ (utf8Char x rest).2 = 0 := by
  have own : (Char.ofNat b.toNat).toNat = b.toNat := by
    have valid : b.toNat.isValidChar := .inl (by have := visible.2; omega)
    unfold Char.ofNat
    rw [dif_pos valid]
    rfl
  obtain ⟨low, high⟩ := visible
  by_cases ascii : x < 0x80
  · rw [utf8Char_ascii ascii] at same ⊢
    refine ⟨?_, rfl⟩
    have own' : (Char.ofNat x.toNat).toNat = x.toNat := by
      rw [UInt8.lt_iff_toNat_lt] at ascii
      change _ < 0x80 at ascii
      have valid : x.toNat.isValidChar := .inl (by omega)
      unfold Char.ofNat
      rw [dif_pos valid]
      rfl
    rw [← UInt8.toNat_inj, ← own', ← own]
    exact congrArg Char.toNat same
  · have other := utf8Char_high ascii rest
    rw [same, own] at other
    omega

theorem prefix_lossy {value bytes : Bytes} (visible : ∀ b ∈ value, Visible b)
    (found : chars value <+: lossyFrom 0 bytes) : value <+: bytes := by
  induction value generalizing bytes with
  | nil => exact List.nil_prefix
  | cons b value ih =>
    cases bytes with
    | nil => exact absurd (List.prefix_nil.mp found) nofun
    | cons x rest =>
      rw [lossyFrom] at found
      obtain ⟨same, later⟩ := List.cons_prefix_cons.mp found
      obtain ⟨rfl, alone⟩ := chars_visible (visible b List.mem_cons_self) same.symm
      rw [alone] at later
      rw [List.prefix_cons_inj]
      exact ih (fun b' mem => visible b' (List.mem_cons_of_mem _ mem)) later

theorem infix_lossy {value bytes : Bytes} (visible : ∀ b ∈ value, Visible b) {skip : ℕ}
    (found : chars value <:+: lossyFrom skip bytes) : value <:+: bytes := by
  induction bytes generalizing skip with
  | nil =>
    have none : lossyFrom skip [] = [] := by cases skip <;> rfl
    rw [none, List.infix_nil] at found
    rw [List.map_eq_nil_iff.mp found]
  | cons x rest ih =>
    have later := fun (skip : ℕ) (found : chars value <:+: lossyFrom skip rest) =>
      (ih found).trans (List.suffix_cons x rest).isInfix
    cases skip with
    | succ skip => exact later skip found
    | zero =>
      obtain here | there := List.infix_cons_iff.mp found
      · have begins : chars value <+: lossyFrom 0 (x :: rest) := here
        exact (prefix_lossy visible begins).isInfix
      · exact later _ there

/-! ### Runs that show no value -/

/-- What the node says itself of the run: an error, or what stands for an output that has nothing
in it. -/
def ownText (argv : List String) (r : StepRun) : String :=
  match r.notSpawned with
  | some e => "sandbox spawn failed: " ++ e.display
  | none =>
    let command := "`" ++ " ".intercalate argv ++ "`"
    match r.exec.1 with
    | .error (.reused _) | .error (.crossJobReuse _) => "sandbox reuse refused (§14.1)"
    | .error e => "exec failed: " ++ e.display
    | .ok (.exited code) =>
      if code = 0 then command ++ " passed in " ++ r.elapsed ++ "s"
      else command ++ " failed (exit " ++ toString code ++ ")"
    | .ok (.signalled signal) => command ++ " was killed by signal " ++ toString signal
    | .ok .timedOut => "step exceeded its " ++ toString r.timeoutSecs ++ "s wall clock"

/-- The detail is the node's own text with its label, or the summary of the masked output. -/
theorem runInner_own (masker : Masker) (argv : List String) (r : StepRun) :
    (∃ kind, runInner masker argv r = errored kind (ownText argv r)) ∨
      runInner masker argv r =
        report (summaryOf (r.collect.redactWith masker.maskBytes) (ownText argv r)) := by
  unfold runInner ownText
  split
  · exact .inl ⟨_, rfl⟩
  · dsimp only
    split
    · exact .inl ⟨_, rfl⟩
    · exact .inl ⟨_, rfl⟩
    · exact .inl ⟨_, rfl⟩
    · split_ifs
      · exact .inr rfl
      · exact .inr rfl
    · exact .inr rfl
    · exact .inl ⟨_, rfl⟩

/-- Masking leaves no value of the output, sanitizing brings none back, and the node names none
itself. -/
structure Harmless (d : Delivered) (r : StepRun) : Prop where
  covered : Covered d.values
  output : Whole (fromUtf8Lossy ((registered d.values).maskBytes r.collect.bytes)).toList
  own : Whole (ownText d.argv r).toList
  unnamed : ∀ v ∈ d.values, ¬ chars v <:+: (ownText d.argv r).toList ∧
    ∀ kind : NodeErrorKind, ¬ chars v <:+: kind.label.toList

theorem accepted_of_mem {registrations : List Bytes} {value : Bytes}
    (mem : value ∈ registrations) (long : minMaskableLen ≤ value.length) :
    Accepted registrations value := by
  obtain ⟨front, back, split⟩ := List.append_of_mem mem
  refine ⟨front, back, split, ?_⟩
  unfold Masker.register
  rw [dif_neg (Nat.not_lt.mpr long)]
  split <;> rfl

/-- **A harmless run shows no value.** -/
theorem not_infix_of_harmless {d : Delivered} {r : StepRun} (harmless : Harmless d r) :
    ∀ v ∈ d.values, ¬ chars v <:+: (runInner (registered d.values) d.argv r).toList := by
  intro v mem found
  have visible := d.visible v mem
  have solid := solid_chars visible
  obtain ⟨own, label⟩ := harmless.unnamed v mem
  have said : ¬ chars v <:+: (report (ownText d.argv r)).toList := fun inner =>
    own (infix_report visible harmless.own inner)
  obtain ⟨kind, same⟩ | same := runInner_own (registered d.values) d.argv r
  · rw [same, errored, String.toList_append] at found
    obtain ⟨word, spelled⟩ : ∃ word : List Char, kind.label.toList = word ++ [' '] := by
      cases kind
      · exact ⟨"no_tests:".toList, rfl⟩
      · exact ⟨"timeout:".toList, rfl⟩
      · exact ⟨"infra:".toList, rfl⟩
    have whole := label kind
    rw [spelled] at found whole
    rw [List.append_assoc, List.singleton_append] at found
    obtain before | after := infix_space (space_not_mem visible) found
    · exact whole (before.trans (List.prefix_append _ _).isInfix)
    · exact said after
  · rw [same] at found
    unfold summaryOf at found
    dsimp only at found
    split_ifs at found
    · exact said found
    · rw [report, sanitizeSummary_again _ le_rfl] at found
      have tail : Whole ((r.collect.redactWith (registered d.values).maskBytes).tailText
          (summaryMaxChars * 2)).toList := by
        intro c inside
        unfold CapturedOutput.tailText at inside
        rw [String.toList_ofList] at inside
        exact harmless.output c (List.mem_of_mem_drop inside)
      have inner := infix_report visible tail found
      unfold CapturedOutput.tailText at inner
      rw [String.toList_ofList] at inner
      replace inner := inner.trans (List.drop_suffix _ _).isInfix
      unfold fromUtf8Lossy at inner
      rw [String.toList_ofList] at inner
      exact (masked_clean harmless.covered r.collect.bytes).gone v
        (accepted_of_mem mem (d.accepted v mem)) (infix_lossy visible inner)

/-- **No output puts a delivered value into the detail exactly when every value is longer than a
summary.** Whatever the values are, none is in the detail of a harmless run. -/
theorem never_reaches_iff (d : Delivered) :
    (NeverReaches d ↔ ∀ v ∈ d.values, summaryMaxChars < v.length) ∧
      ∀ r, Harmless d r → ∀ v ∈ d.values,
        ¬ chars v <:+: (runInner (registered d.values) d.argv r).toList := by
  refine ⟨⟨fun never v mem => ?_, fun long r v mem => ?_⟩, fun r => not_infix_of_harmless⟩
  · by_contra short
    refine never (printing v) v mem ?_
    rw [detail_interleaved d mem (Nat.not_lt.mp short)]
  · exact not_infix_of_long (d.visible v mem) (long v mem) _ _ r

/-- `hunter21`. -/
def token : Bytes :=
  [0x68, 0x75, 0x6e, 0x74, 0x65, 0x72, 0x32, 0x31]

def oneToken : Delivered where
  argv := ["make", "test"]
  values := [token]
  accepted := by decide
  visible v mem b inner := by
    cases List.mem_singleton.mp mem
    have every : token.all (fun b => 0x21 ≤ b.toNat && b.toNat ≤ 0x7e) = true := by decide
    simpa [Visible] using List.all_eq_true.mp every b inner
  apart v mem := by
    cases List.mem_singleton.mp mem
    decide

/-- The step prints `ok`. -/
def okRun : StepRun where
  warm := true
  caps := .default
  chunks := [[0x6f, 0x6b]]
  status := .exited 1
  elapsed := "0.1"
  timeoutSecs := 60

theorem harmless_okRun : Harmless oneToken okRun where
  covered value accepted := by
    obtain ⟨front, back, split, -⟩ := id accepted
    have mem : value ∈ [token] := by
      rw [show [token] = oneToken.values from rfl, split]
      exact List.mem_append_right _ List.mem_cons_self
    cases List.mem_singleton.mp mem
    exact ⟨token, accepted, List.infix_refl _, by decide, by decide, by decide⟩
  output := by
    have bytes : okRun.collect.bytes = [0x6f, 0x6b] := finish_short (by decide) (by decide)
    have free : (registered oneToken.values).maskBytes [0x6f, 0x6b] = [0x6f, 0x6b] := by
      refine foldl_free fun v mem inner => ?_
      have long := (registered oneToken.values).long v mem
      exact absurd (Nat.le_trans long inner.length_le) (by decide)
    rw [bytes, free]
    exact whole_of_all (by decide)
  own := whole_of_all (by decide)
  unnamed v mem := by
    cases List.mem_singleton.mp mem
    refine ⟨by decide, fun kind => ?_⟩
    cases kind <;> decide

/-- No value in the report of that step. -/
theorem never_reaches_ok :
    ¬ chars token <:+: (runInner (registered oneToken.values) oneToken.argv okRun).toList :=
  (never_reaches_iff oneToken).2 okRun harmless_okRun token List.mem_cons_self

/-- `exec failed: hunter21`. -/
def quotedLine : Bytes :=
  [0x65, 0x78, 0x65, 0x63, 0x20, 0x66, 0x61, 0x69, 0x6c, 0x65, 0x64, 0x3a, 0x20] ++ token

/-- The step prints that line on the warm path and exits with 127. -/
def quoting : StepRun where
  warm := true
  caps := .default
  chunks := [quotedLine]
  status := .exited 127
  elapsed := "0.1"
  timeoutSecs := 60

/-- A run on the warm path whose output has a line that the runtime seems to say. -/
theorem exec_runtime {r : StepRun} {why : String} (whole : r.broken = none) (warm : r.warm = true)
    (quotes : execNeverStarted r.status (captured r.caps r.chunks).finish.text = some why) :
    r.exec.1 = .error (.runtime why) := by
  unfold StepRun.exec
  rw [whole, warm]
  simp only [if_true, quotes]

theorem runInner_runtime {masker : Masker} {argv : List String} {r : StepRun} {why : String}
    (spawned : r.notSpawned = none) (exec : r.exec.1 = .error (.runtime why)) :
    runInner masker argv r =
      errored .infra ("exec failed: " ++ SandboxFailure.display (.runtime why)) := by
  unfold runInner
  rw [spawned]
  dsimp only
  rw [exec]

theorem text_quotedLine :
    (captured .default [quotedLine]).finish.text = "exec failed: hunter21" := by
  have sealed : (captured .default [quotedLine]).finish = ⟨quotedLine, 0, 0, .default⟩ := by rfl
  rw [sealed]
  decide

def quotedWhy : String :=
  "the sandbox could not start the command (" ++ "Exited(127)" ++
    "); this is an infrastructure failure and not a test result. Runtime said: " ++
    "exec failed: hunter21"

theorem quotes_quotedLine :
    execNeverStarted (.exited 127) (captured .default [quotedLine]).finish.text =
      some quotedWhy := by
  have line : (linesOf "exec failed: hunter21").find? (fun l =>
      "OCI runtime exec failed".toList <:+: l ∨ "exec failed:".toList <:+: l) =
        some "exec failed: hunter21".toList := by decide
  have status : ExecStatus.debug (.exited 127) = "Exited(127)" := by decide
  unfold execNeverStarted
  rw [text_quotedLine, if_pos (.inr rfl), line, status, Option.map_some, String.ofList_toList]
  exact congrArg some (Eq.refl quotedWhy)

def quotedDetail : String :=
  "exec failed: " ++ SandboxFailure.display (.runtime quotedWhy)

theorem clean_ascii {text : List Char}
    (every : text.all (fun c => 0x20 ≤ c.toNat && c.toNat ≤ 0x7e) = true) :
    ∀ c ∈ text, Proto.Clean c := by
  intro c mem
  obtain ⟨low, high⟩ : 0x20 ≤ c.toNat ∧ c.toNat ≤ 0x7e := by
    simpa using List.all_eq_true.mp every c mem
  have far : ∀ v : UInt32, 0x7e < v.toNat → c.val ≠ v := by
    rintro v above rfl
    exact absurd above (Nat.not_lt.mpr high)
  obtain same | next : c.toNat = 0x20 ∨ 0x21 ≤ c.toNat := by omega
  · have space : c = ' ' := Char.toNat_inj.mp same
    cases space
    exact ⟨by decide, by decide, by decide, by decide⟩
  · have solid := solid_ofNat c.toNat (by omega) next
    rw [Char.ofNat_toNat] at solid
    exact ⟨solid.control, solid.hidden, far _ (by decide), far _ (by decide)⟩

set_option maxRecDepth 2000 in
theorem tidy_quotedDetail : Tidy quotedDetail.toList where
  clean := clean_ascii (by decide)
  spaced := by
    show quotedDetail.toList.IsChain fun a b => ¬ (a = ' ' ∧ b = ' ')
    decide
  head c mem := by
    cases (show quotedDetail.toList.head? = some 'e' from rfl).symm.trans mem
    rfl
  last c mem := by
    cases (show quotedDetail.toList.getLast? = some '1' from by decide).symm.trans mem
    rfl

set_option maxRecDepth 2000 in
theorem length_quotedDetail : quotedDetail.toList.length ≤ summaryMaxChars := by
  decide

/-- **A line that the runtime seems to say is quoted with the value in it.** -/
theorem quoted_in_detail : ¬ ∀ d, NeverReaches d := by
  intro all
  refine all oneToken quoting token List.mem_cons_self ?_
  have kept : report quotedDetail = quotedDetail :=
    sanitizeSummary_of_tidy tidy_quotedDetail length_quotedDetail
  have run : runInner (registered oneToken.values) oneToken.argv quoting =
      errored .infra quotedDetail :=
    runInner_runtime rfl (exec_runtime rfl rfl quotes_quotedLine)
  rw [run, errored, kept]
  have shown : chars token <:+: quotedWhy.toList := by
    delta quotedWhy
    rw [String.toList_append]
    exact .trans (by decide) (List.suffix_append _ _).isInfix
  have display : SandboxFailure.display (.runtime quotedWhy) =
    "sandbox runtime failed: " ++ quotedWhy := rfl
  rw [quotedDetail, display]
  simp only [String.toList_append]
  exact ((shown.trans (List.suffix_append _ _).isInfix).trans
    (List.suffix_append _ _).isInfix).trans (List.suffix_append _ _).isInfix

end HullCi.Node
