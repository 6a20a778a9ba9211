/-
**The scan's way past one piece of the reading.**

The scan and the reading of a text go side by side, one piece at a time. The scan may be ahead by
the rest of a run of word bytes; everywhere else they stand at the same byte.

* `goes_piece` — the turns past one piece, what they count and where they leave the line.
* `Beside.pass` — the same along a reading.
* `heaviest_le_scan`, `chain_le_scan` — what was reached on the way is not lost at the end.
-/

import HullCi.Plan.Starlark

namespace HullCi.Plan

/-! ### Side by side -/

/-- Where the scan stands when the reading stands before `bytes`: there, or past a run. -/
def Near (x bytes : List UInt8) : Prop :=
  x = bytes ∨ x = bytes.dropWhile isWord

theorem near_other {b : UInt8} {rest x : List UInt8} (other : isWord b = false)
    (near : Near x (b :: rest)) : x = b :: rest := by
  rcases near with same | past
  · exact same
  · rw [past, List.dropWhile_cons, if_neg (by simp [other])]

theorem isWord_false {b : UInt8} {c : Class} (kind : classify b = c) (other : c ≠ .word) :
    isWord b = false := by
  simp [isWord, kind, other]

namespace Scan

/-- The weight that the file has so far at most. -/
def heaviest (s : Scan) : ℕ :=
  s.finish.statementWeight

theorem heaviest_endStatement (s : Scan) (b : UInt8) :
    (s.endStatement b).heaviest = s.heaviest := by
  unfold endStatement heaviest finish
  split
  · simp
  · rfl

theorem heaviest_arm (s : Scan) (b : UInt8) : s.heaviest ≤ (s.arm b).heaviest := by
  have ended := (s.heaviest_endStatement b).ge
  unfold heaviest finish at ended ⊢
  cases kind : classify b with
  | newline =>
    simp only [arm, kind]
    exact ended
  | semicolon =>
    simp only [arm, kind]
    exact ended
  | comment | blank => simp only [arm, kind, le_refl]
  | quote | word | other | opener | closer =>
    simp only [arm, kind, weigh]
    omega

theorem heaviest_next (s : Scan) (b : UInt8) (rest : List UInt8) :
    s.heaviest ≤ (s.next b rest).1.heaviest := by
  have same := s.turn_arm b rest
  have grows := s.heaviest_arm b
  unfold heaviest finish next at *
  dsimp only at *
  rw [same.weight, same.statementWeight]
  exact grows

theorem heaviest_goes {s s' : Scan} {x y : List UInt8} (goes : Goes s x s' y) :
    s.heaviest ≤ s'.heaviest := by
  induction goes with
  | refl s bytes => exact le_rfl
  | turn goes ih => exact (heaviest_next _ _ _).trans ih

theorem arm_blockChain (s : Scan) (b : UInt8) :
    (s.arm b).shape.blockChain = s.shape.blockChain := by
  have ended := (s.endStatement_line b).blockChain
  cases kind : classify b with
  | newline =>
    simp only [arm, kind]
    exact ended
  | semicolon =>
    simp only [arm, kind]
    exact ended
  | comment | blank | quote | word | other | opener | closer => simp only [arm, kind, weigh]

theorem blockChain_next (s : Scan) (b : UInt8) (rest : List UInt8) :
    s.shape.blockChain ≤ (s.next b rest).1.shape.blockChain := by
  show s.shape.blockChain ≤ (s.turn b rest).shape.blockChain
  unfold turn
  split_ifs
  · exact le_rfl
  · rw [arm_blockChain]
    unfold settle
    dsimp only
    split_ifs
    · exact le_max_left _ _
    · exact le_rfl
  · rw [arm_blockChain]

theorem blockChain_goes {s s' : Scan} {x y : List UInt8} (goes : Goes s x s' y) :
    s.shape.blockChain ≤ s'.shape.blockChain := by
  induction goes with
  | refl s bytes => exact le_rfl
  | turn goes ih => exact (blockChain_next _ _ _).trans ih

theorem goes_end (s : Scan) (bytes : List UInt8) : ∃ s', Goes s bytes s' [] := by
  induction size : bytes.length using Nat.strong_induction_on generalizing s bytes with
  | _ n ih =>
    cases bytes with
    | nil => exact ⟨s, .refl s []⟩
    | cons b rest =>
      have shorter := s.next_shorter b rest
      obtain ⟨s', goes⟩ := ih _ (by rw [← size, List.length_cons]; omega) (s.next b rest).1
        (s.next b rest).2 rfl
      exact ⟨s', .turn goes⟩

end Scan

theorem heaviest_le_scan {bytes x : List UInt8} {s : Scan} (goes : Scan.Goes .start bytes s x) :
    s.heaviest ≤ (scan bytes).statementWeight := by
  obtain ⟨s', onward⟩ := s.goes_end x
  rw [Scan.scan_of_goes (goes.trans onward)]
  exact Scan.heaviest_goes onward

theorem chain_le_scan {bytes x : List UInt8} {s : Scan} (goes : Scan.Goes .start bytes s x) :
    s.shape.blockChain ≤ (scan bytes).blockChain := by
  obtain ⟨s', onward⟩ := s.goes_end x
  rw [Scan.scan_of_goes (goes.trans onward)]
  exact Scan.blockChain_goes onward

/-! ### Items -/

/-- A piece of leading whitespace. -/
def Piece.leads (p : Piece) : Bool :=
  p.kind == .blank && p.bytes != [Byte.carriageReturn]

namespace Scan

/-- The scan at the start of a line. -/
def Fresh (s : Scan) : Prop :=
  s.atLineStart = true ∧ s.indent = 0

/-- The scan with its line settled by these bytes, if it was not settled before. -/
def opened (s : Scan) (bytes : List UInt8) : Scan :=
  if s.atLineStart then s.settle bytes else s

theorem SameLine.trans {s s' s'' : Scan} (first : SameLine s s') (second : SameLine s' s'') :
    SameLine s s'' where
  chainAt := second.chainAt.trans first.chainAt
  atLineStart := second.atLineStart.trans first.atLineStart
  indent := second.indent.trans first.indent
  blockChain := second.blockChain.trans first.blockChain

theorem opened_atLineStart (s : Scan) (bytes : List UInt8) :
    (s.opened bytes).atLineStart = false := by
  unfold opened
  split_ifs with start
  · rfl
  · exact Bool.eq_false_iff.mpr start

theorem opened_settled {s : Scan} (settled : s.atLineStart = false) (bytes : List UInt8) :
    s.opened bytes = s := by
  unfold opened
  rw [settled]
  rfl

theorem arm_line {b : UInt8} (kind : classify b ≠ .newline) (s : Scan) : SameLine s (s.arm b) := by
  have ended := s.endStatement_line b
  cases class' : classify b with
  | newline => exact absurd class' kind
  | semicolon =>
    simp only [arm, class']
    exact ended
  | comment | blank | quote | word | other | opener | closer =>
    simp only [arm, class', weigh]
    exact ⟨rfl, rfl, rfl, rfl⟩

theorem turn_opened {s : Scan} {b : UInt8} (rest : List UInt8) (kind : classify b ≠ .newline)
    (code : s.indents b = false) : s.turn b rest = (s.opened (b :: rest)).arm b := by
  have other : b ≠ Byte.newline := by
    rintro rfl
    exact kind (by decide)
  unfold turn opened
  rw [if_neg (by simp [code])]
  by_cases start : s.atLineStart = true
  · rw [if_pos ⟨start, other⟩, if_pos start]
  · rw [if_neg fun both => start both.1, if_neg start]

/-- What one turn at the first byte of a text leaves behind. -/
structure Turned (s : Scan) (b : UInt8) (rest : List UInt8) (s' : Scan) : Prop where
  counts : SameCounts (s.arm b) s'
  line : classify b ≠ .newline → s.indents b = false → SameLine (s.opened (b :: rest)) s'
  leading : s.indents b = true → s'.atLineStart = true ∧ s'.indent = s.indent + 1 ∧
    s'.chainAt = s.chainAt ∧ s'.shape.blockChain = s.shape.blockChain

theorem next_turned (s : Scan) (b : UInt8) (rest : List UInt8) :
    Turned s b rest (s.next b rest).1 where
  counts := by
    obtain ⟨depth, nesting, weight, statement⟩ := s.turn_arm b rest
    exact ⟨depth, nesting, weight, statement⟩
  line := by
    intro kind code
    have line := arm_line kind (s.opened (b :: rest))
    rw [← turn_opened rest kind code] at line
    exact ⟨line.chainAt, line.atLineStart, line.indent, line.blockChain⟩
  leading := by
    intro leads
    have start : s.atLineStart = true := by
      simp only [indents, Bool.and_eq_true] at leads
      exact leads.1
    have effect : s.turn b rest = { s with indent := s.indent + 1 } := by
      unfold turn
      rw [if_pos leads]
    unfold next
    rw [effect]
    exact ⟨start, rfl, rfl, rfl⟩

theorem goes_item (s : Scan) (b : UInt8) (item rest : List UInt8)
    (size : itemLength (b :: (item ++ rest)) = item.length + 1) :
    ∃ s', Goes s (b :: (item ++ rest)) s' rest ∧ Turned s b (item ++ rest) s' ∧
      s'.last = (b :: item).getLast? := by
  have left : (s.next b (item ++ rest)).2 = rest := by
    simp only [next, size, List.drop_succ_cons, List.drop_left]
  have last : (s.next b (item ++ rest)).1.last = (b :: item).getLast? := by
    simp only [next, size, List.take_succ_cons, List.take_left]
  refine ⟨(s.next b (item ++ rest)).1, .turn ?_, s.next_turned b (item ++ rest), last⟩
  rw [left]
  exact .refl _ _

theorem goes_byte (s : Scan) (b : UInt8) (rest : List UInt8) (notComment : classify b ≠ .comment)
    (notQuote : classify b ≠ .quote) (notWord : classify b ≠ .word) :
    ∃ s', Goes s (b :: rest) s' rest ∧ Turned s b rest s' ∧ s'.last = some b :=
  goes_item s b [] rest (itemLength_one rest notComment notQuote notWord)

theorem goes_newline (s : Scan) (rest : List UInt8) :
    ∃ s', Goes s (Byte.newline :: rest) s' rest ∧ SameCounts (s.endStatement Byte.newline) s' ∧
      Fresh s' ∧ s'.chainAt = s.chainAt ∧ s'.shape.blockChain = s.shape.blockChain := by
  have ended := s.endStatement_line Byte.newline
  have effect : s.turn Byte.newline rest =
      { s.endStatement Byte.newline with atLineStart := true, indent := 0 } := by
    unfold turn
    rw [if_neg (by simp [indents, show (Byte.newline == Byte.space) = false by decide,
      show (Byte.newline == Byte.tab) = false by decide]), if_neg fun both => both.2 rfl]
    rfl
  refine ⟨(s.next Byte.newline rest).1, .turn (.refl _ _), ?_, ?_, ?_, ?_⟩
  · constructor <;> simp only [next, effect]
  · constructor <;> simp only [next, effect]
  · simp only [next, effect]
    exact ended.chainAt
  · simp only [next, effect]
    exact ended.blockChain

theorem indents_false {s : Scan} {b : UInt8} (kind : classify b ≠ .blank) :
    s.indents b = false := by
  unfold indents
  have space : b ≠ Byte.space := by
    rintro rfl
    exact kind (by decide)
  have tab : b ≠ Byte.tab := by
    rintro rfl
    exact kind (by decide)
  simp [space, tab]

theorem goes_run (s : Scan) (word rest : List UInt8) (some : word ≠ [])
    (words : ∀ b ∈ word, isWord b = true) :
    ∃ s', Goes s (word ++ rest) s' (rest.dropWhile isWord) ∧ s'.depth = s.depth ∧
      s'.weight = s.weight + 1 ∧ SameLine (s.opened (word ++ rest)) s' := by
  cases word with
  | nil => exact absurd rfl some
  | cons b more =>
    have first : isWord b = true := words b List.mem_cons_self
    have kind : classify b = .word := by simpa [isWord] using first
    have run : (b :: more ++ rest).takeWhile isWord = b :: more ++ rest.takeWhile isWord :=
      List.takeWhile_append_of_pos words
    have size : itemLength (b :: ((more ++ rest.takeWhile isWord) ++ rest.dropWhile isWord)) =
        (more ++ rest.takeWhile isWord).length + 1 := by
      rw [List.append_assoc, List.takeWhile_append_dropWhile, itemLength_word _ kind,
        ← List.cons_append, run]
      rfl
    obtain ⟨s', goes, turned, _⟩ := s.goes_item b _ _ size
    rw [List.append_assoc, List.takeWhile_append_dropWhile] at goes turned
    refine ⟨s', goes, ?_, ?_, turned.line (by simp [kind]) (indents_false (by simp [kind]))⟩
    · rw [turned.counts.depth]
      simp [arm, kind, weigh]
    · rw [turned.counts.weight]
      simp [arm, kind, weigh]

theorem goes_others (s : Scan) {op : List UInt8} (rest : List UInt8) (some : op ≠ [])
    (others : ∀ b ∈ op, classify b = .other) :
    ∃ s', Goes s (op ++ rest) s' rest ∧ s'.depth = s.depth ∧ s'.weight = s.weight + op.length ∧
      SameLine (s.opened (op ++ rest)) s' := by
  induction op generalizing s with
  | nil => exact absurd rfl some
  | cons b more ih =>
    have kind : classify b = .other := others b List.mem_cons_self
    obtain ⟨s₁, goes₁, turned, _⟩ := s.goes_byte b (more ++ rest) (by simp [kind]) (by simp [kind])
      (by simp [kind])
    have line₁ := turned.line (by simp [kind]) (indents_false (by simp [kind]))
    have depth₁ : s₁.depth = s.depth := by
      rw [turned.counts.depth]
      simp [arm, kind, weigh]
    have weight₁ : s₁.weight = s.weight + 1 := by
      rw [turned.counts.weight]
      simp [arm, kind, weigh]
    cases more with
    | nil => exact ⟨s₁, goes₁, depth₁, weight₁, line₁⟩
    | cons c more =>
      obtain ⟨s₂, goes₂, depth₂, weight₂, line₂⟩ :=
        ih s₁ (by simp) fun c member => others c (List.mem_cons_of_mem _ member)
      have settled : s₁.atLineStart = false := line₁.atLineStart.trans (s.opened_atLineStart _)
      rw [opened_settled settled] at line₂
      refine ⟨s₂, goes₁.trans goes₂, depth₂.trans depth₁, ?_, line₁.trans line₂⟩
      simp only [weight₂, weight₁, List.length_cons]
      omega

end Scan

/-! ### Pieces -/

/-- The pieces where the scan may take the statement for ended. -/
def Cuts (depth : ℕ) (p : Piece) : Prop :=
  depth = 0 ∧ (p.kind = .newline ∨ p.kind = .semicolon ∨
    (p.kind = .continuation ∧ p.bytes ≠ [Byte.backslash, Byte.newline]))

/-- What one piece does to the scan's counts. -/
structure Counted (s s' : Scan) (p : Piece) : Prop where
  depth : s'.depth = p.depth s.depth
  weight : ¬ Cuts s.depth p → s.weight + (if p.kind.isToken then 1 else 0) ≤ s'.weight

/-- Where one piece leaves the scan on its line. -/
structure Lined (s s' : Scan) (x : List UInt8) (p : Piece) : Prop where
  newline : p.kind = .newline →
    s'.Fresh ∧ s'.chainAt = s.chainAt ∧ s'.shape.blockChain = s.shape.blockChain
  leading : p.leads = true → s.atLineStart = true →
    s'.atLineStart = true ∧ s'.indent = s.indent + 1 ∧ s'.chainAt = s.chainAt ∧
      s'.shape.blockChain = s.shape.blockChain
  settled : p.kind ≠ .newline → (p.leads = true → s.atLineStart = false) →
    (if p.kind = .continuation then s'.Fresh else s'.atLineStart = false) ∧
      s'.chainAt = (s.opened x).chainAt ∧
      s'.shape.blockChain = (s.opened x).shape.blockChain

/-- A piece that is neither blank nor an end of a line settles the line. -/
theorem lined_of_sameLine {s s' : Scan} {x : List UInt8} {p : Piece} (blank : p.kind ≠ .blank)
    (newline : p.kind ≠ .newline) (continuation : p.kind ≠ .continuation)
    (line : Scan.SameLine (s.opened x) s') : Lined s s' x p where
  newline := fun is => absurd is newline
  leading := by
    intro leads
    simp [Piece.leads, blank] at leads
  settled := by
    intro _ _
    rw [if_neg continuation]
    exact ⟨line.atLineStart.trans (s.opened_atLineStart x), line.chainAt, line.blockChain⟩

theorem counted_end {s s' : Scan} {b : UInt8} {p : Piece} (same : s'.depth = s.depth)
    (weight : s'.weight = (s.endStatement b).weight) (plain : p.kind.isToken = false)
    (flat : p.depth s.depth = s.depth)
    (goesOn : ¬ Cuts s.depth p → s.depth ≠ 0 ∨ (b = Byte.newline ∧ s.last = some Byte.backslash)) :
    Counted s s' p where
  depth := by rw [same, flat]
  weight := by
    intro whole
    rw [weight, Scan.endStatement_open (goesOn whole), plain]
    exact le_rfl

/-- A way past one piece: where it ends, and what it leaves behind. The weight is counted where the
piece starts where the scan stands. -/
structure Passed (s : Scan) (x : List UInt8) (p : Piece) (rest : List UInt8) (s' : Scan)
    (x' : List UInt8) : Prop where
  goes : Scan.Goes s x s' x'
  near : Near x' rest
  exact : p.kind.isWord = false → x' = rest
  depth : s'.depth = p.depth s.depth
  weight : (p.kind.isWord = true → x = p.bytes ++ rest) → ¬ Cuts s.depth p →
    s.weight + (if p.kind.isToken then 1 else 0) ≤ s'.weight
  lined : Lined s s' x p

/-- A piece of one byte that is neither a blank nor an end of a line. -/
theorem pass_byte {s : Scan} {x rest : List UInt8} {b : UInt8} {kind : Kind} (here : x = b :: rest)
    (single : classify b ≠ .comment ∧ classify b ≠ .quote ∧ classify b ≠ .word)
    (code : classify b ≠ .blank ∧ classify b ≠ .newline)
    (kinds : kind ≠ .blank ∧ kind ≠ .newline ∧ kind ≠ .continuation)
    (depth : (s.arm b).depth = (⟨kind, [b]⟩ : Piece).depth s.depth)
    (weight : ¬ Cuts s.depth ⟨kind, [b]⟩ →
      s.weight + (if kind.isToken then 1 else 0) ≤ (s.arm b).weight) :
    ∃ s' x', Passed s x ⟨kind, [b]⟩ rest s' x' := by
  subst here
  obtain ⟨s', goes, turned, _⟩ := s.goes_byte b rest single.1 single.2.1 single.2.2
  exact ⟨s', rest, {
    goes := goes
    near := .inl rfl
    exact := fun _ => rfl
    depth := turned.counts.depth.trans depth
    weight := fun _ whole => turned.counts.weight ▸ weight whole
    lined := lined_of_sameLine kinds.1 kinds.2.1 kinds.2.2
      (turned.line code.2 (Scan.indents_false code.1)) }⟩

theorem indents_of_leads {s : Scan} {b : UInt8} (kind : classify b = .blank)
    (leads : (⟨.blank, [b]⟩ : Piece).leads = true) (start : s.atLineStart = true) :
    s.indents b = true := by
  have blanks : ∀ b : UInt8, classify b = .blank → b ≠ Byte.carriageReturn →
      (b == Byte.space || b == Byte.tab) = true := by
    apply forall_byte
    decide +kernel
  have other : b ≠ Byte.carriageReturn := by
    rintro rfl
    exact absurd leads (by decide)
  unfold Scan.indents
  rw [start, blanks b kind other]
  rfl

theorem not_indents_of_leads {s : Scan} {b : UInt8}
    (settled : (⟨.blank, [b]⟩ : Piece).leads = true → s.atLineStart = false) :
    s.indents b = false := by
  by_cases return' : b = Byte.carriageReturn
  · subst return'
    simp [Scan.indents, show (Byte.carriageReturn == Byte.space) = false by decide,
      show (Byte.carriageReturn == Byte.tab) = false by decide]
  · have start := settled (by simp [Piece.leads, return'])
    simp [Scan.indents, start]

/-- A blank: leading whitespace at the start of a line, and nothing elsewhere. -/
theorem pass_blank {s : Scan} {x rest : List UInt8} {b : UInt8} (here : x = b :: rest)
    (kind : classify b = .blank) : ∃ s' x', Passed s x ⟨.blank, [b]⟩ rest s' x' := by
  subst here
  obtain ⟨s', goes, turned, _⟩ := s.goes_byte b rest (by simp [kind]) (by simp [kind])
    (by simp [kind])
  have counts := turned.counts
  simp only [Scan.arm, kind] at counts
  exact ⟨s', rest, {
    goes := goes
    near := .inl rfl
    exact := fun _ => rfl
    depth := counts.depth
    weight := fun _ _ => counts.weight.ge
    lined := {
      newline := fun is => by cases is
      leading := fun leads start => turned.leading (indents_of_leads kind leads start)
      settled := by
        intro _ settled
        have line := turned.line (by simp [kind]) (not_indents_of_leads settled)
        exact ⟨line.atLineStart.trans (s.opened_atLineStart _), line.chainAt, line.blockChain⟩ } }⟩

theorem pass_newline {s : Scan} {x rest : List UInt8} (here : x = Byte.newline :: rest) :
    ∃ s' x', Passed s x ⟨.newline, [Byte.newline]⟩ rest s' x' := by
  subst here
  obtain ⟨s', goes, counts, fresh, chains, most⟩ := s.goes_newline rest
  have counted : Counted s s' ⟨.newline, [Byte.newline]⟩ :=
    counted_end (counts.depth.trans (s.endStatement_depth _)) counts.weight rfl rfl
      fun whole => .inl fun zero => whole ⟨zero, .inl rfl⟩
  exact ⟨s', rest, {
    goes := goes
    near := .inl rfl
    exact := fun _ => rfl
    depth := counted.depth
    weight := fun _ => counted.weight
    lined := {
      newline := fun _ => ⟨fresh, chains, most⟩
      leading := fun leads => by cases leads
      settled := fun other => absurd rfl other } }⟩

theorem pass_semicolon {s : Scan} {x rest : List UInt8} (here : x = Byte.semicolon :: rest) :
    ∃ s' x', Passed s x ⟨.semicolon, [Byte.semicolon]⟩ rest s' x' := by
  have counted : Counted s (s.arm Byte.semicolon) ⟨.semicolon, [Byte.semicolon]⟩ :=
    counted_end (s.endStatement_depth _) rfl rfl rfl
      fun whole => .inl fun zero => whole ⟨zero, .inr (.inl rfl)⟩
  exact pass_byte here (by decide) (by decide) (by decide) counted.depth counted.weight

theorem pass_comment {s : Scan} {x body rest : List UInt8} (here : x = Byte.hash :: (body ++ rest))
    (inLine : ∀ b ∈ body, b ≠ Byte.newline) (ends : ∀ b ∈ rest.head?, b = Byte.newline) :
    ∃ s' x', Passed s x ⟨.comment, Byte.hash :: body⟩ rest s' x' := by
  subst here
  have size : itemLength (Byte.hash :: (body ++ rest)) = body.length + 1 := by
    rw [itemLength_comment _ (by decide), List.takeWhile_cons, if_pos (by decide),
      List.takeWhile_append_of_pos (fun b member => by simpa using inLine b member)]
    cases rest with
    | nil => simp
    | cons c more => simp [ends c rfl]
  obtain ⟨s', goes, turned, _⟩ := s.goes_item Byte.hash _ _ size
  exact ⟨s', rest, {
    goes := goes
    near := .inl rfl
    exact := fun _ => rfl
    depth := turned.counts.depth
    weight := fun _ _ => turned.counts.weight.ge
    lined := lined_of_sameLine (by simp) (by simp) (by simp)
      (turned.line (by decide) (Scan.indents_false (by decide))) }⟩

theorem pass_continuation {s : Scan} {x gap rest : List UInt8}
    (here : x = Byte.backslash :: (gap ++ Byte.newline :: rest))
    (gapped : gap = [] ∨ gap = [Byte.carriageReturn]) :
    ∃ s' x', Passed s x ⟨.continuation, Byte.backslash :: (gap ++ [Byte.newline])⟩ rest s' x' := by
  subst here
  obtain ⟨s₁, goes₁, turned₁, last₁⟩ := s.goes_byte Byte.backslash (gap ++ Byte.newline :: rest)
    (by decide) (by decide) (by decide)
  have depth₁ : s₁.depth = s.depth := turned₁.counts.depth
  have weight₁ : s₁.weight = s.weight + 1 := turned₁.counts.weight
  have line₁ := turned₁.line (by decide) (Scan.indents_false (by decide))
  -- the carriage return, if there is one, stands between the backslash and the newline
  obtain ⟨s₂, goes₂, counts₂, line₂, last₂⟩ : ∃ s₂,
      Scan.Goes s₁ (gap ++ Byte.newline :: rest) s₂ (Byte.newline :: rest) ∧
        Scan.SameCounts s₁ s₂ ∧ Scan.SameLine s₁ s₂ ∧
        (gap = [] → s₂.last = some Byte.backslash) := by
    rcases gapped with rfl | rfl
    · exact ⟨s₁, .refl _ _, ⟨rfl, rfl, rfl, rfl⟩, ⟨rfl, rfl, rfl, rfl⟩, fun _ => last₁⟩
    · obtain ⟨s₂, goes₂, turned₂, _⟩ := s₁.goes_byte Byte.carriageReturn (Byte.newline :: rest)
        (by decide) (by decide) (by decide)
      have line₂ := turned₂.line (by decide) (by simp [Scan.indents,
        show (Byte.carriageReturn == Byte.space) = false by decide,
        show (Byte.carriageReturn == Byte.tab) = false by decide])
      have settled : s₁.atLineStart = false := line₁.atLineStart.trans (s.opened_atLineStart _)
      rw [Scan.opened_settled settled] at line₂
      exact ⟨s₂, goes₂, turned₂.counts, line₂, by simp⟩
  obtain ⟨s₃, goes₃, counts₃, fresh, chains, most⟩ := s₂.goes_newline rest
  have line := line₁.trans line₂
  exact ⟨s₃, rest, {
    goes := goes₁.trans (goes₂.trans goes₃)
    near := .inl rfl
    exact := fun _ => rfl
    depth := by
      rw [counts₃.depth, s₂.endStatement_depth, counts₂.depth, depth₁]
      rfl
    weight := by
      intro _ joined
      have ended : s₂.endStatement Byte.newline = s₂ := by
        apply Scan.endStatement_open
        rcases gapped with rfl | rfl
        · exact .inr ⟨rfl, last₂ rfl⟩
        · refine .inl fun zero => joined ⟨?_, .inr (.inr ⟨rfl, by decide⟩)⟩
          rw [← depth₁, ← counts₂.depth, zero]
      rw [counts₃.weight, ended, counts₂.weight, weight₁]
      exact Nat.le_add_right _ _
    lined := {
      newline := fun is => by cases is
      leading := fun leads => by cases leads
      settled := fun _ _ =>
        ⟨fresh, chains.trans line.chainAt, most.trans line.blockChain⟩ } }⟩

/-- A literal, which may have the mark of a raw one before its quotes. The mark is a run of one
byte, unless a run before it has taken it along. -/
theorem pass_literal {s : Scan} {x raw body rest : List UInt8} {quote : UInt8}
    (near : Near x (raw ++ quote :: body ++ rest))
    (marked : raw = [] ∨ raw = [0x72]) (quoted : classify quote = .quote)
    (skip : skipString quote (quote :: (body ++ rest)) = (quote :: body).length) :
    ∃ s' x', Passed s x ⟨.literal, raw ++ quote :: body⟩ rest s' x' := by
  have stop : (quote :: (body ++ rest)).dropWhile isWord = quote :: (body ++ rest) := by
    rw [List.dropWhile_cons, if_neg (by simp [isWord, quoted])]
  have size : itemLength (quote :: (body ++ rest)) = body.length + 1 := by
    rw [itemLength_quote _ quoted, skip]
    rfl
  -- before the quotes: nothing to do, or the run of the mark
  obtain ⟨s₁, goes₁, depth₁, weight₁, line₁⟩ : ∃ s₁, Scan.Goes s x s₁ (quote :: (body ++ rest)) ∧
      s₁.depth = s.depth ∧ s.weight ≤ s₁.weight ∧
      Scan.SameLine (s.opened x) (s₁.opened (quote :: (body ++ rest))) := by
    have same : ∀ {y}, x = y → y = quote :: (body ++ rest) →
        ∃ s₁, Scan.Goes s x s₁ (quote :: (body ++ rest)) ∧ s₁.depth = s.depth ∧
          s.weight ≤ s₁.weight ∧
          Scan.SameLine (s.opened x) (s₁.opened (quote :: (body ++ rest))) := by
      rintro y rfl rfl
      exact ⟨s, .refl _ _, rfl, le_rfl, rfl, rfl, rfl, rfl⟩
    rcases marked with rfl | rfl
    · exact same (near_other (isWord_false quoted (by decide)) near) rfl
    · rcases near with here | past
      · obtain ⟨s₁, goes₁, depth₁, weight₁, line₁⟩ := s.goes_run [0x72]
          (quote :: (body ++ rest)) (by simp) (List.forall_mem_singleton.mpr rfl)
        rw [stop] at goes₁
        have settled : s₁.atLineStart = false := line₁.atLineStart.trans (s.opened_atLineStart _)
        rw [here]
        refine ⟨s₁, goes₁, depth₁, by omega, ?_⟩
        rw [Scan.opened_settled settled]
        exact line₁
      · refine same past ?_
        show (0x72 :: quote :: (body ++ rest)).dropWhile isWord = _
        rw [List.dropWhile_cons, if_pos (by decide), stop]
  obtain ⟨s₂, goes₂, turned₂, _⟩ := s₁.goes_item quote _ _ size
  have line₂ := turned₂.line (by simp [quoted]) (Scan.indents_false (by simp [quoted]))
  exact ⟨s₂, rest, {
    goes := goes₁.trans goes₂
    near := .inl rfl
    exact := fun _ => rfl
    depth := by
      rw [turned₂.counts.depth]
      simp [Scan.arm, quoted, Scan.weigh, depth₁, Piece.depth]
    weight := by
      intro _ _
      rw [turned₂.counts.weight]
      simp only [Scan.arm, quoted, Scan.weigh, Kind.isToken, if_true]
      omega
    lined := lined_of_sameLine (by simp) (by simp) (by simp) (line₁.trans line₂) }⟩

theorem Kind.isWord_others {kind : Kind} (word : kind.isWord = true) :
    kind ≠ .blank ∧ kind ≠ .newline ∧ kind ≠ .continuation := by
  cases kind <;> first | decide | cases word

/-- A run of word bytes, perhaps a number with a signed exponent. It is behind the scan already
where a run before it has taken it along. -/
theorem pass_run {s : Scan} {x word gap back rest : List UInt8} {kind : Kind}
    (near : Near x (word ++ gap ++ back ++ rest))
    (start : s.atLineStart = true → x = word ++ gap ++ back ++ rest)
    (kinds : kind.isWord = true) (some : word ≠ []) (words : ∀ b ∈ word, isWord b = true)
    (gapped : gap = [] ∧ back = [] ∨ ∃ c, gap = [c] ∧ classify c = .other)
    (backs : ∀ b ∈ back, isWord b = true) :
    ∃ s' x', Passed s x ⟨kind, word ++ gap ++ back⟩ rest s' x' := by
  have whole : word ++ gap ++ back ++ rest = word ++ (gap ++ back ++ rest) := by simp
  have flat : (⟨kind, word ++ gap ++ back⟩ : Piece).depth s.depth = s.depth := by
    unfold Piece.depth
    cases kind <;> first | rfl | cases kinds
  have token : kind.isToken = true := by cases kind <;> first | rfl | cases kinds
  have others := Kind.isWord_others kinds
  -- the run itself, which is no turn where the scan is past it
  obtain ⟨s₁, goes₁, depth₁, weight₁, line₁⟩ : ∃ s₁,
      Scan.Goes s x s₁ ((gap ++ back ++ rest).dropWhile isWord) ∧ s₁.depth = s.depth ∧
        (x = word ++ gap ++ back ++ rest → s.weight + 1 ≤ s₁.weight) ∧
        Scan.SameLine (s.opened x) s₁ := by
    by_cases here : x = word ++ gap ++ back ++ rest
    · obtain ⟨s₁, goes₁, depth₁, weight₁, line₁⟩ := s.goes_run word (gap ++ back ++ rest) some words
      rw [← whole, ← here] at goes₁ line₁
      exact ⟨s₁, goes₁, depth₁, fun _ => weight₁.ge, line₁⟩
    · have settled : s.atLineStart = false := Bool.eq_false_iff.mpr fun at' => here (start at')
      have past : x = (gap ++ back ++ rest).dropWhile isWord := by
        rw [near.resolve_left here, whole, List.dropWhile_append_of_pos words]
      rw [Scan.opened_settled settled]
      exact ⟨s, past ▸ .refl _ _, rfl, fun same => absurd same here, rfl, rfl, rfl, rfl⟩
  have settled₁ : s₁.atLineStart = false := line₁.atLineStart.trans (s.opened_atLineStart _)
  rcases gapped with ⟨rfl, rfl⟩ | ⟨c, rfl, other⟩
  · exact ⟨s₁, _, {
      goes := goes₁
      near := .inr rfl
      exact := fun notWord => absurd kinds (by simp [notWord])
      depth := depth₁.trans flat.symm
      weight := by
        intro exact _
        have := weight₁ (exact kinds)
        simpa [token] using this
      lined := lined_of_sameLine others.1 others.2.1 others.2.2 line₁ }⟩
  · -- a signed exponent: its sign, and the run of its digits
    have stop : ([c] ++ back ++ rest).dropWhile isWord = c :: (back ++ rest) := by
      simp [isWord, other]
    rw [stop] at goes₁
    obtain ⟨s₂, goes₂, turned₂, _⟩ := s₁.goes_byte c (back ++ rest) (by simp [other])
      (by simp [other]) (by simp [other])
    have depth₂ : s₂.depth = s.depth := by
      rw [turned₂.counts.depth]
      simp [Scan.arm, other, Scan.weigh, depth₁]
    have weight₂ : s₂.weight = s₁.weight + 1 := by
      rw [turned₂.counts.weight]
      simp [Scan.arm, other, Scan.weigh]
    have line₂ := turned₂.line (by simp [other]) (Scan.indents_false (by simp [other]))
    rw [Scan.opened_settled settled₁] at line₂
    by_cases digits : back = []
    · subst digits
      exact ⟨s₂, rest, {
        goes := goes₁.trans goes₂
        near := .inl rfl
        exact := fun _ => rfl
        depth := depth₂.trans flat.symm
        weight := by
          intro exact _
          have := weight₁ (exact kinds)
          simp only [token, if_true]
          omega
        lined := lined_of_sameLine others.1 others.2.1 others.2.2 (line₁.trans line₂) }⟩
    · obtain ⟨s₃, goes₃, depth₃, weight₃, line₃⟩ := s₂.goes_run back rest digits backs
      have settled₂ : s₂.atLineStart = false := line₂.atLineStart.trans settled₁
      rw [Scan.opened_settled settled₂] at line₃
      exact ⟨s₃, _, {
        goes := goes₁.trans (goes₂.trans goes₃)
        near := .inr rfl
        exact := fun notWord => absurd kinds (by simp [notWord])
        depth := (depth₃.trans depth₂).trans flat.symm
        weight := by
          intro exact _
          have := weight₁ (exact kinds)
          simp only [token, if_true]
          omega
        lined := lined_of_sameLine others.1 others.2.1 others.2.2
          (line₁.trans (line₂.trans line₃)) }⟩

theorem pass_operator {s : Scan} {x op rest : List UInt8} (here : x = op ++ rest) (some : op ≠ [])
    (others : ∀ b ∈ op, classify b = .other) :
    ∃ s' x', Passed s x ⟨.operator, op⟩ rest s' x' := by
  subst here
  obtain ⟨s', goes, depth, weight, line⟩ := s.goes_others rest some others
  have positive := List.length_pos_of_ne_nil some
  exact ⟨s', rest, {
    goes := goes
    near := .inl rfl
    exact := fun _ => rfl
    depth := depth
    weight := by
      intro _ _
      simp only [Kind.isToken, if_true]
      omega
    lined := lined_of_sameLine (by simp) (by simp) (by simp) line }⟩

/-- **The scan's way past one piece.** -/
theorem goes_piece {kind : Kind} {taken rest : List UInt8} (foot : Footprint kind taken rest)
    (s : Scan) {x : List UInt8} (near : Near x (taken ++ rest))
    (start : s.atLineStart = true → x = taken ++ rest) :
    ∃ s' x', Passed s x ⟨kind, taken⟩ rest s' x' := by
  cases foot with
  | blank kind => exact pass_blank (near_other (isWord_false kind (by decide)) near) kind
  | newline => exact pass_newline (near_other (by decide) near)
  | semicolon => exact pass_semicolon (near_other (by decide) near)
  | opener kind =>
    refine pass_byte (near_other (isWord_false kind (by decide)) near) (by simp [kind])
      (by simp [kind]) (by decide) (Scan.arm_opener kind).1 ?_
    intro _
    simp [Scan.arm, kind, Scan.weigh, Kind.isToken]
  | closer kind =>
    refine pass_byte (near_other (isWord_false kind (by decide)) near) (by simp [kind])
      (by simp [kind]) (by decide) (Scan.arm_closer kind).1 ?_
    intro _
    simp [Scan.arm, kind, Scan.weigh, Kind.isToken]
  | comment inLine ends => exact pass_comment (near_other (by decide) near) inLine ends
  | continuation gapped =>
    exact pass_continuation ((near_other (by decide) near).trans (by simp)) gapped
  | literal marked quoted skip => exact pass_literal near marked quoted skip
  | run kinds some words gapped backs => exact pass_run near start kinds some words gapped backs
  | operator some others =>
    cases taken with
    | nil => exact absurd rfl some
    | cons b more =>
      have kind : classify b = .other := others b List.mem_cons_self
      exact pass_operator (near_other (isWord_false kind (by decide)) near) some others

/-! ### Readings -/

/-- The first piece of a reading, and the reading of what is left. -/
theorem lexed_cons {bytes : List UInt8} {p : Piece} {more : List Piece}
    (lexed : Lexed bytes (p :: more)) :
    ∃ rest, bytes = p.bytes ++ rest ∧ Footprint p.kind p.bytes rest ∧ Lexed rest more := by
  cases lexed with
  | @cons _ kind n _ found rest =>
    exact ⟨bytes.drop n, (List.take_append_drop n bytes).symm, footprint found, rest⟩

/-- The scan where the reading is: at the same byte, wherever a line may start. -/
structure Beside (s : Scan) (x bytes : List UInt8) : Prop where
  near : Near x bytes
  start : s.atLineStart = true → x = bytes

theorem Passed.beside {s s' : Scan} {x x' rest : List UInt8} {p : Piece}
    (passed : Passed s x p rest s' x') : Beside s' x' rest where
  near := passed.near
  start := by
    intro at'
    by_cases word : p.kind.isWord = true
    · obtain ⟨blank, newline, continuation⟩ := Kind.isWord_others word
      have settled := (passed.lined.settled newline
        (fun leads => by simp [Piece.leads, blank] at leads)).1
      rw [if_neg continuation, at'] at settled
      cases settled
    · exact passed.exact (Bool.eq_false_iff.mpr word)

theorem Beside.pass {s : Scan} {x bytes : List UInt8} {p : Piece} {more : List Piece}
    (beside : Beside s x bytes) (lexed : Lexed bytes (p :: more)) :
    ∃ rest s' x', bytes = p.bytes ++ rest ∧ Lexed rest more ∧ Passed s x p rest s' x' := by
  obtain ⟨rest, whole, foot, lexed⟩ := lexed_cons lexed
  obtain ⟨s', x', passed⟩ := goes_piece foot s (whole ▸ beside.near)
    (fun at' => (beside.start at').trans whole)
  exact ⟨rest, s', x', whole, lexed, passed⟩

end HullCi.Plan
