/-
**The captured output of one step: a tail on a budget.**

The buffer is what is left of the bytes pushed so far once a number of them is dropped from the
front. A trim moves that number to the start of a line, and how far depends on nothing but how much
was pushed: `cutTo`. When a trim happens depends on the chunks.

* `trim_standing` — the trim of the buffer, as a move of that number.
* `standing_captured` — after any chunks, the number is where the last trim put it.
* `cutTo_cases` — a trim changes nothing, or all that earlier trims did.
* `chunking_exact` — the chunks leave no trace exactly when no trim on the way stops short of where
  the one at the end would: `Overrun`.
* `short_stop_shows` — one that does.
-/

import Mathlib.Algebra.Ring.Nat
import Mathlib.Data.List.Basic
import Mathlib.Data.List.Induction
import Mathlib.Data.Nat.Find
import Mathlib.Order.MinMax

namespace HullCi.Node

/-! ### The capture -/

def newline : UInt8 := 0x0A

def countNewlines (bytes : List UInt8) : ℕ :=
  bytes.count newline

/-- Addition of two `usize`s that stops at the largest one. -/
def saturatingAdd (a b : ℕ) : ℕ :=
  min (a + b) (2 ^ 64 - 1)

/-- The output budget of one step. -/
structure OutputCaps where
  maxBytes : ℕ := 50 * 1024 * 1024
  maxLines : ℕ := 500000
  bytesFit : maxBytes < 2 ^ 64 := by decide
  linesFit : maxLines < 2 ^ 64 := by decide

namespace OutputCaps

/-- How far over the cap the buffer may run before it is trimmed. -/
def byteSlack (caps : OutputCaps) : ℕ :=
  max (caps.maxBytes / 8) (64 * 1024)

def lineSlack (caps : OutputCaps) : ℕ :=
  max (caps.maxLines / 8) 1024

/-- A buffer of so many bytes and lines is trimmed. -/
def Over (caps : OutputCaps) (bytes lines : ℕ) : Prop :=
  saturatingAdd caps.maxBytes caps.byteSlack < bytes ∨
    saturatingAdd caps.maxLines caps.lineSlack < lines

instance (caps : OutputCaps) (bytes lines : ℕ) : Decidable (caps.Over bytes lines) :=
  inferInstanceAs (Decidable (_ ∨ _))

end OutputCaps

/-- A write sink that never grows past its budget. -/
structure OutputCapture where
  caps : OutputCaps
  buf : List UInt8 := []
  /-- the newlines in `buf` -/
  lines : ℕ := 0
  droppedBytes : ℕ := 0
  droppedLines : ℕ := 0

/-- What is sealed of a capture. -/
structure CapturedOutput where
  bytes : List UInt8
  droppedBytes : ℕ
  droppedLines : ℕ
  caps : OutputCaps

/-- Where the last `maxBytes` bytes first reach the start of a line; all of it, if they do not. -/
def byteCut (maxBytes : ℕ) (buf : List UInt8) : ℕ :=
  if maxBytes < buf.length then
    let cut := buf.length - maxBytes
    match (buf.drop cut).idxOf? newline with
    | some off => cut + off + 1
    | none => buf.length
  else 0

/-- The loop over the bytes, until so many newlines are passed; nothing is cut if they are fewer. -/
def excessCut : ℕ → ℕ → List UInt8 → ℕ
  | _, _, [] => 0
  | excess, i, b :: rest =>
    if b = newline then
      if excess - 1 = 0 then i + 1 else excessCut (excess - 1) (i + 1) rest
    else excessCut excess (i + 1) rest

/-- How much must go from the front for both caps to hold. -/
def frontCut (caps : OutputCaps) (buf : List UInt8) : ℕ :=
  let cut := byteCut caps.maxBytes buf
  let linesAfter := countNewlines (buf.drop cut)
  if caps.maxLines < linesAfter then
    cut + excessCut (linesAfter - caps.maxLines) 0 (buf.drop cut)
  else cut

namespace OutputCapture

/-- Drop from the front until both caps hold, cutting on a line boundary. -/
def trim (c : OutputCapture) : OutputCapture :=
  let cut := frontCut c.caps c.buf
  if cut = 0 then c
  else
    let dropped := countNewlines (c.buf.take cut)
    { c with
      buf := c.buf.drop cut
      lines := c.lines - dropped
      droppedBytes := c.droppedBytes + cut
      droppedLines := c.droppedLines + dropped }

/-- Append a chunk read from the job. -/
def push (c : OutputCapture) (chunk : List UInt8) : OutputCapture :=
  let c := { c with buf := c.buf ++ chunk, lines := c.lines + countNewlines chunk }
  if c.caps.Over c.buf.length c.lines then c.trim else c

/-- Seal the capture, enforcing the caps exactly. -/
def finish (c : OutputCapture) : CapturedOutput :=
  let c := c.trim
  { bytes := c.buf, droppedBytes := c.droppedBytes, droppedLines := c.droppedLines, caps := c.caps }

end OutputCapture

/-- The capture of a stream that comes in these chunks. -/
def captured (caps : OutputCaps) (chunks : List (List UInt8)) : OutputCapture :=
  chunks.foldl OutputCapture.push { caps }

/-! ### What is to hold -/

/-- What is kept of a stream, however it comes. -/
structure Unchunked (caps : OutputCaps) (stream : List UInt8) : Prop where
  same : ∀ chunks chunks', chunks.flatten = stream → chunks'.flatten = stream →
    (captured caps chunks).finish = (captured caps chunks').finish
  suffix : ∀ chunks, chunks.flatten = stream →
    (captured caps chunks).finish.bytes =
      stream.drop (captured caps chunks).finish.droppedBytes
  total : ∀ chunks, chunks.flatten = stream →
    (captured caps chunks).finish.droppedBytes + (captured caps chunks).finish.bytes.length =
      stream.length
  begins : ∀ chunks, chunks.flatten = stream →
    (captured caps chunks).finish.bytes = [] ∨ (captured caps chunks).finish.droppedBytes = 0 ∨
      stream[(captured caps chunks).finish.droppedBytes - 1]? = some newline
  bytes : ∀ chunks, chunks.flatten = stream →
    (captured caps chunks).finish.bytes.length ≤ caps.maxBytes
  lines : ∀ chunks, chunks.flatten = stream →
    countNewlines (captured caps chunks).finish.bytes ≤ caps.maxLines
  buffered : ∀ chunks, chunks.flatten = stream →
    (captured caps chunks).buf.length ≤ caps.maxBytes + caps.byteSlack

/-- The newlines between two places of a stream. -/
def linesIn (stream : List UInt8) (p t : ℕ) : ℕ :=
  countNewlines ((stream.take t).drop p)

/-- A trim on the way can stop within the last `maxBytes` bytes, short of the first line that starts
in them: at the line that starts with them, or inside a line longer than all that may be kept. -/
def Overrun (caps : OutputCaps) (stream : List UInt8) : Prop :=
  1 ≤ caps.maxBytes ∧ caps.maxBytes < stream.length ∧
    linesIn stream (stream.length - caps.maxBytes) stream.length ≤ caps.maxLines ∧
    (caps.Over (stream.length - 1) (linesIn stream 0 (stream.length - 1)) ∧
        stream[stream.length - caps.maxBytes - 1]? = some newline ∨
      ∃ t, stream.length - caps.maxBytes ≤ t ∧ t < stream.length ∧ caps.maxBytes < t ∧
        caps.Over t (linesIn stream 0 t) ∧ linesIn stream (t - caps.maxBytes) t = 0)

/-! ### Places -/

section Places

variable {caps : OutputCaps} {stream : List UInt8} {p q t u d : ℕ}

theorem linesIn_mono_left (less : p ≤ q) : linesIn stream q t ≤ linesIn stream p t := by
  unfold linesIn countNewlines
  rw [← Nat.add_sub_cancel' less, ← List.drop_drop]
  exact (List.drop_sublist _ _).count_le _

theorem linesIn_mono_right (less : t ≤ u) : linesIn stream p t ≤ linesIn stream p u := by
  unfold linesIn countNewlines
  exact ((List.take_sublist_take_left less).drop p).count_le _

theorem linesIn_self : linesIn stream t t = 0 := by
  unfold linesIn
  rw [List.drop_eq_nil_of_le (List.length_take_le _ _)]
  rfl

theorem linesIn_step (below : p < t) (fits : t ≤ stream.length) :
    linesIn stream p t = linesIn stream (p + 1) t +
      if stream[p]? = some newline then 1 else 0 := by
  have long : p < (stream.take t).length := by
    rw [List.length_take]
    omega
  unfold linesIn countNewlines
  rw [List.drop_eq_getElem_cons long, List.count_cons]
  congr 1
  rw [List.getElem_take, List.getElem?_eq_getElem (below.trans_le fits)]
  simp

theorem linesIn_eq_zero :
    linesIn stream p t = 0 ↔ ∀ i, p ≤ i → i < t → stream[i]? ≠ some newline := by
  unfold linesIn countNewlines
  rw [List.count_eq_zero, List.mem_iff_getElem?]
  constructor
  · intro absent i after before found
    refine absent ⟨i - p, ?_⟩
    rw [List.getElem?_drop, Nat.add_sub_cancel' after, List.getElem?_take_of_lt before, found]
  · rintro free ⟨i, found⟩
    rw [List.getElem?_drop, List.getElem?_take] at found
    split at found
    · exact free (p + i) (Nat.le_add_right _ _) ‹_› found
    · cases found

/-- Where the line cap lets what was pushed begin. -/
def lineStart (caps : OutputCaps) (stream : List UInt8) (t : ℕ) : ℕ :=
  Nat.find (p := fun p => linesIn stream p t ≤ caps.maxLines)
    ⟨t, by rw [linesIn_self]; exact Nat.zero_le _⟩

theorem lineStart_le_iff : lineStart caps stream t ≤ p ↔ linesIn stream p t ≤ caps.maxLines := by
  unfold lineStart
  rw [Nat.find_le_iff]
  constructor
  · rintro ⟨q, less, fits⟩
    exact (linesIn_mono_left less).trans fits
  · exact fun fits => ⟨p, le_rfl, fits⟩

theorem lineStart_le (caps : OutputCaps) (stream : List UInt8) (t : ℕ) :
    lineStart caps stream t ≤ t :=
  lineStart_le_iff.mpr (by rw [linesIn_self]; exact Nat.zero_le _)

theorem lineStart_mono (less : t ≤ u) : lineStart caps stream t ≤ lineStart caps stream u :=
  lineStart_le_iff.mpr ((linesIn_mono_right less).trans (lineStart_le_iff.mp le_rfl))

theorem newline_lineStart (fits : t ≤ stream.length) (moved : 0 < lineStart caps stream t) :
    stream[lineStart caps stream t - 1]? = some newline := by
  have within := lineStart_le caps stream t
  have step : linesIn stream (lineStart caps stream t - 1) t = _ := linesIn_step (by omega) fits
  rw [Nat.sub_add_cancel moved] at step
  have few := lineStart_le_iff.mp (le_refl (lineStart caps stream t))
  by_contra other
  rw [if_neg other, Nat.add_zero] at step
  have less := lineStart_le_iff.mpr (step.le.trans few)
  omega

/-- Where the byte cap lets it begin: the first line that starts in the last `maxBytes` bytes, or
nowhere before the end. -/
def byteStart (caps : OutputCaps) (stream : List UInt8) (t : ℕ) : ℕ :=
  Nat.find (p := fun q => q = t ∨ t - caps.maxBytes < q ∧ stream[q - 1]? = some newline)
    ⟨t, .inl rfl⟩

theorem byteStart_spec (caps : OutputCaps) (stream : List UInt8) (t : ℕ) :
    byteStart caps stream t = t ∨ t - caps.maxBytes < byteStart caps stream t ∧
      stream[byteStart caps stream t - 1]? = some newline :=
  Nat.find_spec (p := fun q => q = t ∨ t - caps.maxBytes < q ∧ stream[q - 1]? = some newline) _

theorem byteStart_le (caps : OutputCaps) (stream : List UInt8) (t : ℕ) :
    byteStart caps stream t ≤ t :=
  Nat.find_min' _ (.inl rfl)

theorem byteStart_le_of (after : t - caps.maxBytes < q) (starts : stream[q - 1]? = some newline) :
    byteStart caps stream t ≤ q :=
  Nat.find_min' _ (.inr ⟨after, starts⟩)

theorem sub_le_byteStart (caps : OutputCaps) (stream : List UInt8) (t : ℕ) :
    t - caps.maxBytes ≤ byteStart caps stream t := by
  rcases byteStart_spec caps stream t with same | ⟨after, -⟩
  · omega
  · omega

theorem byteStart_mono (less : t ≤ u) : byteStart caps stream t ≤ byteStart caps stream u := by
  rcases Nat.lt_or_ge (byteStart caps stream u) t with before | after
  · rcases byteStart_spec caps stream u with same | ⟨after, starts⟩
    · omega
    · exact byteStart_le_of (by omega) starts
  · exact (byteStart_le ..).trans after

/-- Where a trim of all that was pushed begins. -/
def start (caps : OutputCaps) (stream : List UInt8) (t : ℕ) : ℕ :=
  max (if caps.maxBytes < t then byteStart caps stream t else 0) (lineStart caps stream t)

/-- Where a trim moves the start of the buffer. -/
def cutTo (caps : OutputCaps) (stream : List UInt8) (t d : ℕ) : ℕ :=
  max (if caps.maxBytes < t - d then byteStart caps stream t else d) (lineStart caps stream t)

theorem cutTo_zero : cutTo caps stream t 0 = start caps stream t :=
  rfl

theorem start_le (caps : OutputCaps) (stream : List UInt8) (t : ℕ) :
    start caps stream t ≤ t := by
  unfold start
  refine max_le ?_ (lineStart_le ..)
  split
  · exact byteStart_le ..
  · exact Nat.zero_le _

theorem cutTo_le (caps : OutputCaps) (stream : List UInt8) (within : d ≤ t) :
    cutTo caps stream t d ≤ t := by
  unfold cutTo
  refine max_le ?_ (lineStart_le ..)
  split
  · exact byteStart_le ..
  · exact within

theorem le_cutTo (caps : OutputCaps) (stream : List UInt8) (t d : ℕ) :
    d ≤ cutTo caps stream t d := by
  unfold cutTo
  refine le_trans ?_ (le_max_left _ _)
  split
  · have := sub_le_byteStart caps stream t
    omega
  · exact le_rfl

/-- A line that starts in the last bytes is no earlier than the first one. -/
theorem byteStart_le_lineStart (fits : t ≤ stream.length)
    (after : t - caps.maxBytes < lineStart caps stream t) :
    byteStart caps stream t ≤ lineStart caps stream t :=
  byteStart_le_of after (newline_lineStart fits (Nat.zero_lt_of_lt after))

/-- **A trim leaves the buffer where it begins, or moves it where a trim of everything would.** -/
theorem cutTo_cases (caps : OutputCaps) (d : ℕ) (fits : t ≤ stream.length) :
    cutTo caps stream t d = d ∨ cutTo caps stream t d = start caps stream t := by
  unfold cutTo start
  by_cases wide : caps.maxBytes < t - d
  · rw [if_pos wide, if_pos (by omega)]
    exact .inr rfl
  rw [if_neg wide]
  rcases Nat.le_total (lineStart caps stream t) d with before | after
  · exact .inl (max_eq_left before)
  rcases Nat.eq_or_lt_of_le after with same | after
  · rw [same, max_self]
    exact .inl rfl
  refine .inr ?_
  rw [max_eq_right after.le]
  split
  · rw [max_eq_right (byteStart_le_lineStart fits (by omega))]
  · rw [max_eq_right (Nat.zero_le _)]

end Places

/-! ### What a trim moves -/

section Trims

variable {caps : OutputCaps} {stream : List UInt8} {p q t u d : ℕ}

/-- The capture when so much was pushed, and so much of it dropped. -/
def standing (caps : OutputCaps) (stream : List UInt8) (t d : ℕ) : OutputCapture where
  caps := caps
  buf := (stream.take t).drop d
  lines := linesIn stream d t
  droppedBytes := d
  droppedLines := linesIn stream 0 d

theorem length_standing (caps : OutputCaps) (fits : t ≤ stream.length) :
    (standing caps stream t d).buf.length = t - d := by
  show ((stream.take t).drop d).length = t - d
  rw [List.length_drop, List.length_take, min_eq_left fits]

theorem getElem?_standing {i : ℕ} (below : d + i < t) :
    ((stream.take t).drop d)[i]? = stream[d + i]? := by
  rw [List.getElem?_drop, List.getElem?_take_of_lt below]

theorem linesIn_add (stream : List UInt8) (first : p ≤ q) (second : q ≤ t) :
    linesIn stream p q + linesIn stream q t = linesIn stream p t := by
  have parts := List.take_append_drop (q - p) ((stream.take t).drop p)
  rw [List.drop_drop, Nat.add_sub_cancel' first, List.take_drop, List.take_take,
    Nat.add_sub_cancel' first, min_eq_left second] at parts
  unfold linesIn countNewlines
  rw [← parts, List.count_append]

theorem add_byteCut (caps : OutputCaps) (within : d ≤ t) (fits : t ≤ stream.length) :
    d + byteCut caps.maxBytes ((stream.take t).drop d) =
      if caps.maxBytes < t - d then byteStart caps stream t else d := by
  have length : ((stream.take t).drop d).length = t - d := length_standing caps fits
  unfold byteCut
  rw [length]
  split
  · rename_i wide
    have cut : d + (t - d - caps.maxBytes) = t - caps.maxBytes := by omega
    dsimp only
    rw [List.drop_drop, cut]
    split
    · rename_i off found
      obtain ⟨below, here, first⟩ := List.idxOf?_eq_some_iff.mp found
      rw [List.length_drop, List.length_take, min_eq_left fits] at below
      have at' : stream[t - caps.maxBytes + off]? = some newline := by
        rw [← getElem?_standing (t := t) (by omega), ← here]
        exact List.getElem?_eq_getElem _
      apply Nat.le_antisymm
      · rcases byteStart_spec caps stream t with same | ⟨after, starts⟩
        · omega
        · by_contra before
          have window := byteStart_le caps stream t
          refine first (byteStart caps stream t - 1 - (t - caps.maxBytes)) (by omega) ?_
          rw [List.getElem_eq_iff, getElem?_standing (by omega), ← starts]
          congr 1
          omega
      · refine byteStart_le_of (by omega) ?_
        rw [← at']
        congr 1
        omega
    · rename_i absent
      rw [List.idxOf?_eq_none_iff] at absent
      rcases byteStart_spec caps stream t with same | ⟨after, starts⟩
      · omega
      · have window := byteStart_le caps stream t
        refine absurd (List.mem_iff_getElem?.mpr
          ⟨byteStart caps stream t - 1 - (t - caps.maxBytes), ?_⟩) absent
        rw [getElem?_standing (by omega), ← starts]
        congr 1
        omega
  · rfl

theorem excessCut_cons (excess i : ℕ) (b : UInt8) (rest : List UInt8) :
    excessCut excess i (b :: rest) = if b = newline then
      if excess - 1 = 0 then i + 1 else excessCut (excess - 1) (i + 1) rest
    else excessCut excess (i + 1) rest :=
  rfl

/-- The loop stops behind the newline that leaves no more than it should. -/
theorem excessCut_spec {buf : List UInt8} {excess : ℕ} (i : ℕ) (some' : 1 ≤ excess)
    (enough : excess ≤ countNewlines buf) :
    ∃ n, excessCut excess i buf = i + n ∧
      countNewlines (buf.drop n) = countNewlines buf - excess ∧
      ∀ m < n, countNewlines buf - excess < countNewlines (buf.drop m) := by
  induction buf generalizing excess i with
  | nil => exact absurd enough (Nat.not_le.mpr some')
  | cons b rest ih =>
    rw [excessCut_cons]
    by_cases ends : b = newline
    · have count : countNewlines (b :: rest) = countNewlines rest + 1 := by
        rw [ends]
        exact List.count_cons_self
      rw [if_pos ends]
      split
      · refine ⟨1, rfl, ?_, fun m before => ?_⟩
        · show countNewlines rest = _
          omega
        · obtain rfl : m = 0 := by omega
          show _ < countNewlines (b :: rest)
          omega
      · obtain ⟨n, stops, leaves, before⟩ := @ih (excess - 1) (i + 1) (by omega) (by omega)
        refine ⟨n + 1, by omega, ?_, fun m less => ?_⟩
        · show countNewlines (rest.drop n) = _
          omega
        · cases m with
          | zero =>
            show _ < countNewlines (b :: rest)
            omega
          | succ m =>
            have := before m (by omega)
            show _ < countNewlines (rest.drop m)
            omega
    · have count : countNewlines (b :: rest) = countNewlines rest :=
        List.count_cons_of_ne ends
      rw [if_neg ends]
      obtain ⟨n, stops, leaves, before⟩ := @ih excess (i + 1) some' (by omega)
      refine ⟨n + 1, by omega, ?_, fun m less => ?_⟩
      · show countNewlines (rest.drop n) = _
        omega
      · cases m with
        | zero =>
          show _ < countNewlines (b :: rest)
          omega
        | succ m =>
          have := before m (by omega)
          show _ < countNewlines (rest.drop m)
          omega

theorem add_excessCut (more : caps.maxLines < linesIn stream p t) :
    p + excessCut (linesIn stream p t - caps.maxLines) 0 ((stream.take t).drop p) =
      lineStart caps stream t := by
  obtain ⟨n, stops, leaves, before⟩ := excessCut_spec 0
    (show 1 ≤ linesIn stream p t - caps.maxLines by omega)
    (Nat.sub_le (countNewlines ((stream.take t).drop p)) caps.maxLines)
  have count : countNewlines ((stream.take t).drop p) = linesIn stream p t := rfl
  have after (m : ℕ) : countNewlines (((stream.take t).drop p).drop m) =
      linesIn stream (p + m) t := by
    rw [List.drop_drop]
    rfl
  rw [stops]
  apply Nat.le_antisymm
  · by_contra less
    rcases Nat.lt_or_ge (lineStart caps stream t) p with early | late
    · have := lineStart_le_iff.mp early.le
      omega
    · have over' := before (lineStart caps stream t - p) (by omega)
      rw [after, Nat.add_sub_cancel' late] at over'
      have := lineStart_le_iff.mp (le_refl (lineStart caps stream t))
      omega
  · refine lineStart_le_iff.mpr ?_
    rw [Nat.zero_add, ← after, leaves]
    omega

theorem drop_standing {total : ℕ} (within : d + total ≤ t) :
    ({ caps
       buf := ((stream.take t).drop d).drop total
       lines := linesIn stream d t - countNewlines (((stream.take t).drop d).take total)
       droppedBytes := d + total
       droppedLines := linesIn stream 0 d +
        countNewlines (((stream.take t).drop d).take total) } : OutputCapture) =
      standing caps stream t (d + total) := by
  have taken : ((stream.take t).drop d).take total = (stream.take (d + total)).drop d := by
    rw [List.take_drop, List.take_take, min_eq_left within]
  have dropped : countNewlines (((stream.take t).drop d).take total) =
      linesIn stream d (d + total) := by
    rw [taken]
    rfl
  have split := linesIn_add stream (Nat.le_add_right d total) within
  have before := linesIn_add stream (Nat.zero_le d) (Nat.le_add_right d total)
  unfold standing
  rw [dropped, List.drop_drop, before, ← split, Nat.add_sub_cancel_left]

/-- **What a trim drops** ends where the trim begins. -/
theorem add_frontCut (caps : OutputCaps) (within : d ≤ t) (fits : t ≤ stream.length) :
    d + frontCut caps ((stream.take t).drop d) = cutTo caps stream t d := by
  have bytes := add_byteCut caps within fits
  unfold frontCut cutTo
  dsimp only
  rw [← bytes]
  generalize byteCut caps.maxBytes ((stream.take t).drop d) = cut
  have rest : ((stream.take t).drop d).drop cut = (stream.take t).drop (d + cut) :=
    List.drop_drop ..
  have lines : countNewlines (((stream.take t).drop d).drop cut) = linesIn stream (d + cut) t := by
    rw [rest]
    rfl
  rw [lines, rest]
  split
  · rename_i more
    rw [← Nat.add_assoc, add_excessCut more, max_eq_right]
    by_contra before
    exact absurd (lineStart_le_iff.mp (Nat.not_le.mp before).le) (Nat.not_le.mpr more)
  · rename_i few
    rw [max_eq_left (lineStart_le_iff.mpr (Nat.not_lt.mp few))]

/-- **A trim of the buffer** moves its start. -/
theorem trim_standing (within : d ≤ t) (fits : t ≤ stream.length) :
    (standing caps stream t d).trim = standing caps stream t (cutTo caps stream t d) := by
  have moved := add_frontCut caps within fits
  have within' := cutTo_le caps stream within
  unfold OutputCapture.trim
  dsimp only [standing]
  generalize frontCut caps ((stream.take t).drop d) = cut at moved ⊢
  rw [← moved] at within' ⊢
  by_cases none : cut = 0
  · rw [if_pos none, none]
    rfl
  · rw [if_neg none]
    exact drop_standing within'

end Trims

/-! ### Any chunks -/

section Chunks

variable {caps : OutputCaps} {stream : List UInt8} {t u d : ℕ}

theorem OutputCaps.Over.mono {bytes bytes' lines lines' : ℕ} (over' : caps.Over bytes lines)
    (more : bytes ≤ bytes') (more' : lines ≤ lines') : caps.Over bytes' lines' :=
  over'.imp (fun bytes => bytes.trans_le more) fun lines => lines.trans_le more'

theorem sub_cutTo_le (caps : OutputCaps) (stream : List UInt8) (t d : ℕ) :
    t - cutTo caps stream t d ≤ caps.maxBytes := by
  have moved := le_cutTo caps stream t d
  by_cases wide : caps.maxBytes < t - d
  · have reached : byteStart caps stream t ≤ cutTo caps stream t d := by
      unfold cutTo
      rw [if_pos wide]
      exact le_max_left _ _
    have := sub_le_byteStart caps stream t
    omega
  · omega

theorem lineStart_le_cutTo (caps : OutputCaps) (stream : List UInt8) (t d : ℕ) :
    lineStart caps stream t ≤ cutTo caps stream t d :=
  le_max_right _ _

theorem cutTo_cutTo (caps : OutputCaps) (stream : List UInt8) (t d : ℕ) :
    cutTo caps stream t (cutTo caps stream t d) = cutTo caps stream t d := by
  have small := sub_cutTo_le caps stream t d
  have reached := lineStart_le_cutTo caps stream t d
  generalize cutTo caps stream t d = e at small reached
  unfold cutTo
  rw [if_neg (Nat.not_lt.mpr small), max_eq_left reached]

theorem standing_zero (caps : OutputCaps) (stream : List UInt8) :
    ({ caps } : OutputCapture) = standing caps stream 0 0 := by
  unfold standing
  rw [linesIn_self]
  rfl

/-- **A push**, and the trim it may cause. -/
theorem push_standing {chunk rest : List UInt8} (within : d ≤ t)
    (next : stream.drop t = chunk ++ rest) (fits : t ≤ stream.length) :
    (standing caps stream t d).push chunk =
      if caps.Over (t + chunk.length - d) (linesIn stream d (t + chunk.length)) then
        standing caps stream (t + chunk.length) (cutTo caps stream (t + chunk.length) d)
      else standing caps stream (t + chunk.length) d := by
  have longer : t + chunk.length ≤ stream.length := by
    have := congrArg List.length next
    rw [List.length_drop, List.length_append] at this
    omega
  have taken : stream.take (t + chunk.length) = stream.take t ++ chunk := by
    rw [List.take_add, next, List.take_left]
  have short : d ≤ (stream.take t).length := by
    rw [List.length_take, min_eq_left fits]
    exact within
  have pushed : ({ standing caps stream t d with
      buf := (standing caps stream t d).buf ++ chunk
      lines := (standing caps stream t d).lines + countNewlines chunk } : OutputCapture) =
      standing caps stream (t + chunk.length) d := by
    unfold standing linesIn
    rw [taken, List.drop_append_of_le_length short]
    simp only [countNewlines, List.count_append]
  have trimmed : ∀ c', ({ standing caps stream t d with
      buf := (standing caps stream t d).buf ++ chunk
      lines := (standing caps stream t d).lines + countNewlines chunk } : OutputCapture) = c' →
      (standing caps stream t d).push chunk =
        if c'.caps.Over c'.buf.length c'.lines then c'.trim else c' := by
    rintro _ rfl
    rfl
  rw [trimmed _ pushed, trim_standing (by omega) longer, length_standing caps longer]
  rfl

/-- Where a trim on the way may have put the start of the buffer. -/
def Stop (caps : OutputCaps) (stream : List UInt8) (t d : ℕ) : Prop :=
  d = 0 ∨ ∃ u ≤ t, caps.Over u (linesIn stream 0 u) ∧ d = start caps stream u

/-- **After any chunks** the buffer is what is left behind the last trim, within the slack. -/
theorem standing_captured (caps : OutputCaps) (chunks : List (List UInt8)) (rest : List UInt8)
    (split : stream = chunks.flatten ++ rest) :
    ∃ d ≤ chunks.flatten.length, captured caps chunks =
        standing caps stream chunks.flatten.length d ∧
      Stop caps stream chunks.flatten.length d ∧
      chunks.flatten.length - d ≤ caps.maxBytes + caps.byteSlack := by
  induction chunks using List.reverseRecOn generalizing rest with
  | nil =>
    exact ⟨0, le_rfl, standing_zero caps stream, .inl rfl, Nat.zero_le _⟩
  | append_singleton chunks chunk ih =>
    have split' : stream = chunks.flatten ++ (chunk ++ rest) := by
      rw [split]
      simp
    obtain ⟨d, within, same, stop, -⟩ := ih _ split'
    have flat : (chunks ++ [chunk]).flatten.length = chunks.flatten.length + chunk.length := by
      simp
    have next : stream.drop chunks.flatten.length = chunk ++ rest := by
      rw [split', List.drop_left]
    have longer : chunks.flatten.length + chunk.length ≤ stream.length := by
      rw [split']
      simp only [List.length_append]
      omega
    have pushed : captured caps (chunks ++ [chunk]) = (captured caps chunks).push chunk :=
      List.foldl_append ..
    rw [flat, pushed, same, push_standing within next (by omega)]
    have further : d ≤ chunks.flatten.length + chunk.length := by omega
    have stop : Stop caps stream (chunks.flatten.length + chunk.length) d := by
      refine stop.imp_right ?_
      rintro ⟨u, before, over', here⟩
      exact ⟨u, by omega, over', here⟩
    generalize chunks.flatten.length + chunk.length = t at longer further stop
    split
    · rename_i over'
      refine ⟨_, cutTo_le caps stream further, rfl, ?_, 
        (sub_cutTo_le ..).trans (Nat.le_add_right _ _)⟩
      rcases cutTo_cases caps d longer with still | moved
      · rw [still]
        exact stop
      · have over' := over'.mono (Nat.sub_le _ _) (linesIn_mono_left (Nat.zero_le _))
        exact .inr ⟨t, le_rfl, over', moved⟩
    · rename_i fits
      refine ⟨d, further, rfl, stop, ?_⟩
      exact (Nat.not_lt.mp (not_or.mp fits).1).trans (min_le_left _ _)

/-- What is sealed of a stream whose kept part begins at a place. -/
def sealedAt (caps : OutputCaps) (stream : List UInt8) (e : ℕ) : CapturedOutput where
  bytes := stream.drop e
  droppedBytes := e
  droppedLines := linesIn stream 0 e
  caps := caps

theorem finish_standing (within : d ≤ stream.length) :
    (standing caps stream stream.length d).finish =
      sealedAt caps stream (cutTo caps stream stream.length d) := by
  unfold OutputCapture.finish
  rw [trim_standing within le_rfl]
  show CapturedOutput.mk ((stream.take stream.length).drop _) _ _ _ = _
  rw [List.take_length]
  rfl

theorem finish_captured (caps : OutputCaps) {chunks : List (List UInt8)}
    (all : chunks.flatten = stream) :
    ∃ d, Stop caps stream stream.length d ∧ (captured caps chunks).finish =
      sealedAt caps stream (cutTo caps stream stream.length d) := by
  obtain ⟨d, within, same, stop, -⟩ := standing_captured caps chunks []
    (show stream = _ by rw [all, List.append_nil])
  rw [all] at within same stop
  exact ⟨d, stop, by rw [same, finish_standing within]⟩

/-! ### When the chunks leave a trace -/

theorem start_mono (caps : OutputCaps) (stream : List UInt8) (less : t ≤ u) :
    start caps stream t ≤ start caps stream u := by
  unfold start
  refine max_le_max ?_ (lineStart_mono less)
  split
  · rw [if_pos (by omega)]
    exact byteStart_mono less
  · exact Nat.zero_le _

/-- The place where all is cut to is the end, the beginning or the start of a line. -/
theorem start_begins (caps : OutputCaps) (fits : t ≤ stream.length) : start caps stream t = t ∨
    start caps stream t = 0 ∨ stream[start caps stream t - 1]? = some newline := by
  unfold start
  rcases Nat.le_total (if caps.maxBytes < t then byteStart caps stream t else 0)
    (lineStart caps stream t) with lines | bytes
  · rw [max_eq_right lines]
    rcases Nat.eq_zero_or_pos (lineStart caps stream t) with none | moved
    · exact .inr (.inl none)
    · exact .inr (.inr (newline_lineStart fits moved))
  · rw [max_eq_left bytes]
    split
    · rcases byteStart_spec caps stream t with same | ⟨-, starts⟩
      · exact .inl same
      · exact .inr (.inr starts)
    · exact .inr (.inl rfl)

/-- A line that starts no later than a trim on the way, in the last bytes. -/
theorem overrun_of_stop (fits : u ≤ stream.length) (over' : caps.Over u (linesIn stream 0 u))
    (differs : cutTo caps stream stream.length (start caps stream u) ≠
      start caps stream stream.length) : Overrun caps stream := by
  have still := (cutTo_cases caps (start caps stream u)
    (le_refl stream.length)).resolve_right differs
  have early := start_mono caps stream fits
  have place := start_begins caps fits
  have own : start caps stream u = max (if caps.maxBytes < u then byteStart caps stream u else 0)
    (lineStart caps stream u) := rfl
  have below := start_le caps stream u
  rw [still] at differs
  generalize start caps stream u = d at *
  have narrow : ¬ caps.maxBytes < stream.length - d := by
    intro wide
    refine differs ?_
    rw [← still]
    unfold cutTo start
    rw [if_pos wide, if_pos (by omega)]
  have lines : lineStart caps stream stream.length ≤ d := by
    rw [← still]
    exact lineStart_le_cutTo ..
  have long : caps.maxBytes < stream.length := by
    by_contra short
    refine differs (Nat.le_antisymm early ?_)
    unfold start
    rw [if_neg short, max_eq_right (Nat.zero_le _)]
    exact lines
  have before : d < byteStart caps stream stream.length := by
    by_contra after
    refine differs (Nat.le_antisymm early ?_)
    unfold start
    rw [if_pos long]
    exact max_le (Nat.not_lt.mp after) lines
  have some' : 1 ≤ caps.maxBytes := by
    have := byteStart_le caps stream stream.length
    omega
  have unstarted (starts : stream[d - 1]? = some newline) :
      d = stream.length - caps.maxBytes := by
    by_contra other
    exact absurd (byteStart_le_of (by omega) starts) (Nat.not_le.mpr before)
  refine ⟨some', long, ?_, ?_⟩
  · refine lineStart_le_iff.mp ?_
    by_contra after
    have := byteStart_le_lineStart (le_refl stream.length) (Nat.not_le.mp after)
    omega
  have sooner : u ≤ stream.length - 1 := by
    by_contra last
    obtain rfl : u = stream.length := by omega
    exact differs own
  by_cases starts : stream[d - 1]? = some newline
  · refine .inl ⟨over'.mono sooner (linesIn_mono_right sooner), ?_⟩
    rw [← unstarted starts]
    exact starts
  · obtain rfl : d = u := by
      rcases place with same | none | starts'
      · exact same
      · omega
      · exact absurd starts' starts
    have unlined : lineStart caps stream d < d := by
      refine lt_of_le_of_ne (lineStart_le ..) fun same => starts ?_
      have line : stream[lineStart caps stream d - 1]? = _ := newline_lineStart fits (by omega)
      rwa [same] at line
    have wide : caps.maxBytes < d := by
      by_contra short
      rw [if_neg short] at own
      omega
    rw [if_pos wide] at own
    refine .inr ⟨d, by omega, by omega, wide, over', linesIn_eq_zero.mpr ?_⟩
    intro i after less found
    have first : byteStart caps stream d ≤ i + 1 := byteStart_le_of (by omega) found
    obtain rfl : d = i + 1 := by omega
    exact starts found

theorem finish_two (fits : u ≤ stream.length) (over' : caps.Over u (linesIn stream 0 u)) :
    (captured caps [stream.take u, stream.drop u]).finish =
      sealedAt caps stream (cutTo caps stream stream.length (start caps stream u)) := by
  have first : ({ caps } : OutputCapture).push (stream.take u) =
      standing caps stream u (start caps stream u) := by
    rw [standing_zero caps stream, push_standing le_rfl
      (show stream.drop 0 = stream.take u ++ stream.drop u by simp) (Nat.zero_le _),
      List.length_take, min_eq_left fits, Nat.zero_add, Nat.sub_zero, if_pos over', cutTo_zero]
  have within := start_le caps stream u
  show ((({ caps } : OutputCapture).push (stream.take u)).push (stream.drop u)).finish = _
  rw [first, push_standing within (show stream.drop u = stream.drop u ++ [] by simp) fits,
    List.length_drop, Nat.add_sub_cancel' fits]
  split
  · rw [finish_standing (cutTo_le caps stream (within.trans fits)), cutTo_cutTo]
  · rw [finish_standing (within.trans fits)]

theorem finish_whole (caps : OutputCaps) (stream : List UInt8) :
    (captured caps [stream]).finish =
      sealedAt caps stream (start caps stream stream.length) := by
  show (({ caps } : OutputCapture).push stream).finish = _
  rw [standing_zero caps stream, push_standing le_rfl (show stream.drop 0 = stream ++ [] by simp)
    (Nat.zero_le _), Nat.zero_add]
  split
  · rw [finish_standing (cutTo_le caps stream (Nat.zero_le _)), cutTo_cutTo, cutTo_zero]
  · rw [finish_standing (Nat.zero_le _), cutTo_zero]

/-- **A trim on the way that stops short** is not undone at the end. -/
theorem differs_of_overrun (overrun : Overrun caps stream) : ∃ u ≤ stream.length,
    caps.Over u (linesIn stream 0 u) ∧
      cutTo caps stream stream.length (start caps stream u) <
        start caps stream stream.length := by
  obtain ⟨some', long, few, case⟩ := overrun
  have lines : lineStart caps stream stream.length ≤ stream.length - caps.maxBytes :=
    lineStart_le_iff.mpr few
  have bytes : start caps stream stream.length = byteStart caps stream stream.length := by
    have := sub_le_byteStart caps stream stream.length
    unfold start
    rw [if_pos long, max_eq_left (by omega)]
  have ends := byteStart_spec caps stream stream.length
  rcases case with ⟨over', starts⟩ | ⟨t, after, before, wide, over', free⟩
  · refine ⟨stream.length - 1, Nat.sub_le _ _, over', ?_⟩
    have lines' : lineStart caps stream (stream.length - 1) ≤ _ :=
      (lineStart_mono (Nat.sub_le stream.length 1)).trans lines
    -- the line that starts with the last bytes is where the trim on the way stops
    have stops : start caps stream (stream.length - 1) = stream.length - caps.maxBytes := by
      unfold start
      split
      · have first : byteStart caps stream (stream.length - 1) ≤ stream.length - caps.maxBytes :=
          byteStart_le_of (by omega) starts
        rcases byteStart_spec caps stream (stream.length - 1) with same | ⟨later, -⟩
        · omega
        · omega
      · rename_i narrow
        have more : caps.maxLines < linesIn stream 0 (stream.length - 1) := by
          have fits := caps.bytesFit
          have fits' := caps.linesFit
          rcases over' with bytes | lines
          · unfold saturatingAdd at bytes
            omega
          · unfold saturatingAdd at lines
            omega
        have moved : ¬ lineStart caps stream (stream.length - 1) ≤ 0 := fun none =>
          absurd (lineStart_le_iff.mp none) (Nat.not_le.mpr more)
        omega
    rw [stops, bytes]
    unfold cutTo
    rw [if_neg (by omega), max_eq_left lines]
    rcases ends with same | ⟨later, -⟩
    · omega
    · exact later
  · refine ⟨t, before.le, over', ?_⟩
    have free := linesIn_eq_zero.mp free
    have stops : start caps stream t = t := by
      unfold start
      rw [if_pos wide]
      rcases byteStart_spec caps stream t with same | ⟨later, starts⟩
      · rw [same, max_eq_left (lineStart_le ..)]
      · have := byteStart_le caps stream t
        exact absurd starts (free _ (by omega) (by omega))
    rw [stops, bytes]
    unfold cutTo
    rw [if_neg (by omega), max_eq_left (lines.trans after)]
    rcases ends with same | ⟨later, starts⟩
    · omega
    · by_contra early
      exact free _ (by omega) (by omega) starts

theorem not_unchunked (overrun : Overrun caps stream) : ¬ Unchunked caps stream := by
  intro unchunked
  obtain ⟨u, fits, over', less⟩ := differs_of_overrun overrun
  have same := unchunked.same [stream.take u, stream.drop u] [stream] (by simp) (by simp)
  rw [finish_two fits over', finish_whole] at same
  exact absurd (congrArg CapturedOutput.droppedBytes same) less.ne

/-- **The chunks leave no trace** exactly when no trim on the way can stop short. -/
theorem chunking_exact (caps : OutputCaps) (stream : List UInt8) :
    Unchunked caps stream ↔ ¬ Overrun caps stream := by
  constructor
  · exact fun unchunked overrun => not_unchunked overrun unchunked
  · intro short
    have one (chunks : List (List UInt8)) (all : chunks.flatten = stream) :
        (captured caps chunks).finish =
          sealedAt caps stream (start caps stream stream.length) := by
      obtain ⟨d, stop, same⟩ := finish_captured caps all
      rw [same]
      congr 1
      rcases stop with rfl | ⟨u, fits, over', rfl⟩
      · rfl
      · by_contra differs
        exact short (overrun_of_stop fits over' differs)
    have within := start_le caps stream stream.length
    refine ⟨fun chunks chunks' all all' => (one chunks all).trans (one chunks' all').symm,
      fun chunks all => ?_, fun chunks all => ?_, fun chunks all => ?_, fun chunks all => ?_,
      fun chunks all => ?_, fun chunks all => ?_⟩
    · rw [one chunks all]
      rfl
    · rw [one chunks all]
      show start caps stream stream.length + (stream.drop _).length = _
      rw [List.length_drop, Nat.add_sub_cancel' within]
    · rw [one chunks all]
      rcases start_begins caps (le_refl stream.length) with last | begins
      · exact .inl (List.drop_eq_nil_of_le last.ge)
      · exact .inr begins
    · rw [one chunks all]
      show (stream.drop _).length ≤ _
      rw [List.length_drop, ← cutTo_zero]
      exact sub_cutTo_le ..
    · rw [one chunks all]
      have few := lineStart_le_iff.mp (lineStart_le_cutTo caps stream stream.length 0)
      unfold linesIn at few
      rw [List.take_length] at few
      exact few
    · obtain ⟨d, -, same, -, within⟩ := standing_captured caps chunks []
        (show stream = _ by rw [all, List.append_nil])
      rw [same, all, length_standing caps le_rfl]
      rw [all] at within
      exact within

/-- One line longer than the buffer may run, and its end. -/
def longLine : List UInt8 :=
  List.replicate 70000 0x61 ++ [0x61, newline]

def fourBytes : OutputCaps where
  maxBytes := 4

/-- The line is dropped up to where the first chunk ends, and the rest of it is kept as if it were
a line. -/
theorem short_stop_shows : ¬ ∀ caps stream, Unchunked caps stream := by
  intro unchunked
  have length : longLine.length = 70002 := by
    rw [longLine, List.length_append, List.length_replicate]
    rfl
  refine not_unchunked ?_ (unchunked fourBytes longLine)
  refine ⟨by decide, ?_, ?_, .inr ⟨70000, ?_, ?_, by decide, .inl (by decide), ?_⟩⟩
  · rw [length]
    decide
  · refine (linesIn_mono_left (Nat.zero_le _)).trans ?_
    rw [linesIn, List.take_length, List.drop_zero, countNewlines, longLine, List.count_append,
      List.count_replicate]
    decide
  · rw [length]
    decide
  · rw [length]
    decide
  · refine linesIn_eq_zero.mpr fun i _ before => ?_
    rw [longLine, List.getElem?_append_left (by rw [List.length_replicate]; exact before),
      List.getElem?_replicate_of_lt before]
    decide

end Chunks

end HullCi.Node
