/-
**The chain of a ladder against its branches.**

The scan keeps one running count for every column and decides at the first byte of a physical line
what becomes of it. The lines that Starlark joins or passes over stand at a column all the same, so a
ladder is counted in full where none of them stands at the ladder's column.

* `goes_segment` — what one physical line does to the counts.
* `ladders_bounded` — where no line between the branches disturbs the count, and the `if` is one that
  the scan knows, the chain bounds the ladder.
* `commented_outgrows` — a comment between two branches hides one of them.
-/

import HullCi.Plan.Passage

namespace HullCi.Plan

/-! ### Ladders -/

/-- The bytes of some pieces. -/
def textOf (pieces : List Piece) : List UInt8 :=
  pieces.flatMap Piece.bytes

/-- The leading whitespace of a line. -/
def margin (line : List Piece) : List UInt8 :=
  textOf (line.takeWhile Piece.leads)

/-- A line that only has blanks and comments. -/
def isBlank (line : List Piece) : Bool :=
  line.all fun p => !p.kind.isToken

/-- Whether a line's first token is the keyword. -/
def opensWith (keyword : String) (line : List Piece) : Bool :=
  line.find? (fun p => p.kind.isToken) == some ⟨.name, bytesOf keyword⟩

/-- A branch after the first one, and the lines before it: the suite of the branch above. -/
structure Rung where
  between : List (List Piece)
  branch : List Piece
  deriving DecidableEq, Repr

structure Ladder where
  first : List Piece
  rungs : List Rung
  deriving DecidableEq, Repr

/-- The `if` and its `elif`s. -/
def Ladder.branches (l : Ladder) : ℕ :=
  1 + l.rungs.length

section Reading

-- How far to the right a margin puts a line is left to the language.
variable (column : List UInt8 → ℕ)

/-- The rungs above a first branch: deeper lines belong to the suite of the branch before them, and
blank lines to nothing. -/
def climb (first : List Piece) : List (List Piece) → List (List Piece) → List Rung
  | _, [] => []
  | between, line :: rest =>
    if isBlank line ∨ column (margin first) < column (margin line) then
      climb first (between ++ [line]) rest
    else if opensWith "elif" line ∧ column (margin line) = column (margin first) then
      ⟨between, line⟩ :: climb first [] rest
    else []

/-- The ladders among some logical lines, each from its `if` to its last `elif`. -/
def ladders : List (List Piece) → List Ladder
  | [] => []
  | line :: rest =>
    if opensWith "if" line then ⟨line, climb column line [] rest⟩ :: ladders rest
    else ladders rest

end Reading

/-! ### Physical lines -/

/-- A newline ends a physical line, and so does a backslash that joins it to the next one. -/
def endsPhysical (p : Piece) : Bool :=
  p.kind == .newline || p.kind == .continuation

def physical (pieces : List Piece) : List (List Piece) :=
  split (fun _ => endsPhysical) 0 pieces

/-- How many leading blanks a line has. -/
def indentOf (line : List Piece) : ℕ :=
  (line.takeWhile Piece.leads).length

/-- A line after its leading blanks. -/
def bodyOf (line : List Piece) : List Piece :=
  line.dropWhile Piece.leads

def beginsWith (text : String) (line : List Piece) : Bool :=
  (bytesOf text).isPrefixOf (textOf (bodyOf line))

/-- A physical line that leaves the count at the column as it is, or lets it grow. -/
def Quiet (n : ℕ) (line : List Piece) : Prop :=
  indentOf line = n → (bodyOf line).head?.map Piece.kind = some .newline ∨
    beginsWith "elif" line = true ∨ beginsWith "else" line = true

/-- Nothing between the branches disturbs the count at the column, and each branch stands there. -/
def Clear (n : ℕ) : List Piece → List Rung → Prop
  | _, [] => True
  | before, r :: rest =>
    (∀ line ∈ (physical before).tail ++ r.between.flatMap physical, Quiet n line) ∧
      (indentOf r.branch = n ∧ beginsWith "elif" r.branch = true) ∧ Clear n r.branch rest

/-- A ladder that the scan counts in full. -/
def Plain (l : Ladder) : Prop :=
  (beginsWith "if " l.first = true ∨ beginsWith "if(" l.first = true) ∧
    Clear (indentOf l.first) l.first l.rungs

instance Quiet.decidable (n : ℕ) : DecidablePred (Quiet n) := fun line =>
  inferInstanceAs (Decidable (indentOf line = n → _ ∨ _ ∨ _))

instance Clear.decidable (n : ℕ) : ∀ before rungs, Decidable (Clear n before rungs)
  | _, [] => .isTrue trivial
  | _, r :: rest =>
    @instDecidableAnd _ _ inferInstance
      (@instDecidableAnd _ _ inferInstance (Clear.decidable n r.branch rest))

instance : DecidablePred Plain := fun l =>
  inferInstanceAs (Decidable ((_ ∨ _) ∧ Clear (indentOf l.first) l.first l.rungs))

/-! ### Passing lines -/

theorem lexed_text {bytes : List UInt8} {pieces : List Piece} (lexed : Lexed bytes pieces) :
    bytes = textOf pieces := by
  induction lexed with
  | nil => rfl
  | @cons bytes kind n pieces _ _ ih =>
    unfold textOf at ih ⊢
    rw [List.flatMap_cons, ← ih]
    exact (List.take_append_drop n bytes).symm

/-- Past any pieces; after the end of a line the scan is at the start of the next one. -/
theorem goes_pieces {front more : List Piece} {bytes : List UInt8}
    (lexed : Lexed bytes (front ++ more)) {s : Scan} {x : List UInt8} (beside : Beside s x bytes) :
    ∃ s' x' rest, Scan.Goes s x s' x' ∧ Lexed rest more ∧ Beside s' x' rest ∧
      ((front = [] → s.Fresh) → (∀ p ∈ front.getLast?, p.kind = .newline) → s'.Fresh) := by
  induction front generalizing bytes s x with
  | nil => exact ⟨s, x, bytes, .refl s x, lexed, beside, fun fresh _ => fresh rfl⟩
  | cons p front ih =>
    obtain ⟨rest, s₁, x₁, _, lexed₁, passed⟩ := beside.pass lexed
    obtain ⟨s', x', rest', goes, lexed', beside', fresh⟩ := ih lexed₁ passed.beside
    refine ⟨s', x', rest', passed.goes.trans goes, lexed', beside', ?_⟩
    intro _ ended
    cases front with
    | nil => exact fresh (fun _ => (passed.lined.newline (ended p rfl)).1) (by simp)
    | cons q front => exact fresh (by simp) (by simpa using ended)

theorem goes_leading {lead more : List Piece} (leads : ∀ p ∈ lead, p.leads = true)
    {bytes : List UInt8} (lexed : Lexed bytes (lead ++ more)) {s : Scan}
    (start : s.atLineStart = true) :
    ∃ s' rest, Scan.Goes s bytes s' rest ∧ Lexed rest more ∧ s'.atLineStart = true ∧
      s'.indent = s.indent + lead.length ∧ s'.chainAt = s.chainAt ∧
      s'.shape.blockChain = s.shape.blockChain := by
  induction lead generalizing bytes s with
  | nil => exact ⟨s, bytes, .refl s bytes, lexed, start, rfl, rfl, rfl⟩
  | cons p lead ih =>
    have beside : Beside s bytes bytes := ⟨.inl rfl, fun _ => rfl⟩
    obtain ⟨rest, s₁, x₁, _, lexed₁, passed⟩ := beside.pass lexed
    obtain ⟨start₁, indent₁, chains₁, most₁⟩ :=
      passed.lined.leading (leads p List.mem_cons_self) start
    obtain rfl : x₁ = rest := passed.beside.start start₁
    obtain ⟨s', rest', goes, lexed', start', indent', chains', most'⟩ :=
      ih (fun q member => leads q (List.mem_cons_of_mem _ member)) lexed₁ start₁
    refine ⟨s', rest', passed.goes.trans goes, lexed', start', ?_, chains'.trans chains₁,
      most'.trans most₁⟩
    rw [indent', indent₁, List.length_cons]
    omega

/-- Past the rest of a settled line, to the start of the next one. -/
theorem goes_settled {inner more : List Piece} {t : Piece}
    (inside : ∀ p ∈ inner, endsPhysical p = false) (ended : endsPhysical t = true)
    {bytes : List UInt8} (lexed : Lexed bytes (inner ++ t :: more)) {s : Scan} {x : List UInt8}
    (beside : Beside s x bytes) (settled : s.atLineStart = false) :
    ∃ s' rest, Scan.Goes s x s' rest ∧ Lexed rest more ∧ s'.Fresh ∧ s'.chainAt = s.chainAt ∧
      s'.shape.blockChain = s.shape.blockChain := by
  induction inner generalizing bytes s x with
  | nil =>
    obtain ⟨rest, s₁, x₁, _, lexed₁, passed⟩ := beside.pass lexed
    have fresh : s₁.Fresh ∧ s₁.chainAt = s.chainAt ∧ s₁.shape.blockChain = s.shape.blockChain := by
      by_cases newline : t.kind = .newline
      · exact passed.lined.newline newline
      · have continuation : t.kind = .continuation := by
          simpa [endsPhysical, newline] using ended
        have line := passed.lined.settled newline fun _ => settled
        rw [if_pos continuation, Scan.opened_settled settled] at line
        exact line
    obtain rfl : x₁ = rest := passed.beside.start fresh.1.1
    exact ⟨s₁, x₁, passed.goes, lexed₁, fresh⟩
  | cons p inner ih =>
    obtain ⟨rest, s₁, x₁, _, lexed₁, passed⟩ := beside.pass lexed
    have plain := inside p List.mem_cons_self
    simp only [endsPhysical, Bool.or_eq_false_iff, beq_eq_false_iff_ne] at plain
    have line := passed.lined.settled plain.1 fun _ => settled
    rw [if_neg plain.2, Scan.opened_settled settled] at line
    obtain ⟨s', rest', goes, lexed', fresh, chains, most⟩ :=
      ih (fun q member => inside q (List.mem_cons_of_mem _ member)) lexed₁ passed.beside line.1
    exact ⟨s', rest', passed.goes.trans goes, lexed', fresh, chains.trans line.2.1,
      most.trans line.2.2⟩

/-! ### What settles a line -/

theorem isPrefixOf_append {word text more : List UInt8} (front : word.isPrefixOf text = true) :
    word.isPrefixOf (text ++ more) = true := by
  rw [List.isPrefixOf_iff_prefix] at front ⊢
  exact front.trans (List.prefix_append text more)

/-- A text does not begin with two words of different first bytes. -/
theorem not_isPrefixOf {v w text : List UInt8} (other : v ≠ [] ∧ w ≠ [] ∧ v.head? ≠ w.head?)
    (front : v.isPrefixOf text = true) : w.isPrefixOf text = false := by
  obtain ⟨someV, someW, heads⟩ := other
  cases v with
  | nil => exact absurd rfl someV
  | cons a v =>
    cases w with
    | nil => exact absurd rfl someW
    | cons b w =>
      cases text with
      | nil => rfl
      | cons c rest =>
        have first : a = c := by
          simp only [List.isPrefixOf, Bool.and_eq_true, beq_iff_eq] at front
          exact front.1
        have apart : b ≠ c := fun same => heads (by rw [first, same]; rfl)
        simp [List.isPrefixOf, apart]

theorem entry_elif {running : ℕ} {text : List UInt8}
    (elif : (bytesOf "elif").isPrefixOf text = true) : Scan.entry running text = running + 1 := by
  unfold Scan.entry
  rw [if_pos elif]

theorem entry_if {running : ℕ} {text : List UInt8}
    (keyword : (bytesOf "if ").isPrefixOf text = true ∨ (bytesOf "if(").isPrefixOf text = true) :
    Scan.entry running text = 1 := by
  have other : (bytesOf "elif").isPrefixOf text = false := by
    rcases keyword with front | front
    · exact not_isPrefixOf (by decide +kernel) front
    · exact not_isPrefixOf (by decide +kernel) front
  unfold Scan.entry
  rw [if_neg (by simp [other]), if_pos keyword]

theorem entry_else {running : ℕ} {text : List UInt8}
    (front : (bytesOf "else").isPrefixOf text = true) : running ≤ Scan.entry running text := by
  have space : (bytesOf "if ").isPrefixOf text = false := not_isPrefixOf (by decide +kernel) front
  have bracket : (bytesOf "if(").isPrefixOf text = false := not_isPrefixOf (by decide +kernel) front
  unfold Scan.entry
  split_ifs with elif keyword
  · exact Nat.le_succ running
  · simp [space, bracket] at keyword
  · exact le_rfl

namespace Scan

/-- The running count at the column of a settled line, and the chain that it reaches. -/
theorem settle_here (s : Scan) (text : List UInt8) :
    (s.settle text).chainAt s.indent = entry (s.chainAt s.indent) text := by
  simp [settle]

theorem settle_elsewhere {s : Scan} {n : ℕ} (other : s.indent ≠ n) (text : List UInt8) :
    (s.settle text).chainAt n = s.chainAt n := by
  simp [settle, Function.update_of_ne other.symm]

theorem settle_branch {s : Scan} {text : List UInt8}
    (branch : (bytesOf "elif").isPrefixOf text = true ∨ (bytesOf "if ").isPrefixOf text = true ∨
      (bytesOf "if(").isPrefixOf text = true) :
    entry (s.chainAt s.indent) text ≤ (s.settle text).shape.blockChain := by
  unfold settle
  dsimp only
  rw [if_pos branch]
  exact le_max_right _ _

end Scan

/-! ### One physical line -/

theorem leads_line (line : List Piece) :
    line.takeWhile Piece.leads ++ bodyOf line = line :=
  List.takeWhile_append_dropWhile

theorem leads_takeWhile (line : List Piece) :
    ∀ p ∈ line.takeWhile Piece.leads, p.leads = true :=
  fun _ member => List.mem_takeWhile_imp member

theorem bodyOf_head {line body : List Piece} {p : Piece} (first : bodyOf line = p :: body) :
    p.leads = false := by
  have stops := List.head?_dropWhile_not Piece.leads line
  unfold bodyOf at first
  rw [first] at stops
  simpa using stops

/-- The scan at the start of a line goes past its leading blanks and its first piece. -/
theorem goes_opening {line more body : List Piece} {p : Piece} (first : bodyOf line = p :: body)
    (code : p.kind ≠ .newline) {bytes : List UInt8} (lexed : Lexed bytes (line ++ more)) {s : Scan}
    (fresh : s.Fresh) :
    ∃ (s₀ s' : Scan) (x' rest : List UInt8), Scan.Goes s bytes s' x' ∧
      Lexed rest (body ++ more) ∧ Beside s' x' rest ∧
      s₀.indent = indentOf line ∧ s₀.chainAt = s.chainAt ∧
      (if p.kind = .continuation then s'.Fresh else s'.atLineStart = false) ∧
      s'.chainAt = (s₀.settle (textOf (bodyOf line) ++ textOf more)).chainAt ∧
      s'.shape.blockChain = (s₀.settle (textOf (bodyOf line) ++ textOf more)).shape.blockChain := by
  rw [← leads_line line, List.append_assoc] at lexed
  obtain ⟨s₀, rest₀, goes₀, lexed₀, start₀, indent₀, chains₀, _⟩ :=
    goes_leading (leads_takeWhile line) lexed fresh.1
  have text : rest₀ = textOf (bodyOf line) ++ textOf more := by
    rw [lexed_text lexed₀]
    exact List.flatMap_append
  rw [first, List.cons_append] at lexed₀
  have beside : Beside s₀ rest₀ rest₀ := ⟨.inl rfl, fun _ => rfl⟩
  obtain ⟨rest, s', x', _, lexed', passed⟩ := beside.pass lexed₀
  have leads := bodyOf_head first
  have settled := passed.lined.settled code fun at' => by rw [leads] at at'; cases at'
  have opened : s₀.opened rest₀ = s₀.settle (textOf (bodyOf line) ++ textOf more) := by
    unfold Scan.opened
    rw [if_pos start₀, text]
  rw [opened] at settled
  refine ⟨s₀, s', x', rest, goes₀.trans passed.goes, lexed', passed.beside, ?_, chains₀,
    settled.1, settled.2.1, settled.2.2⟩
  rw [indent₀, fresh.2, Nat.zero_add]
  rfl

/-- A physical line with its end. -/
structure Segment (line : List Piece) : Prop where
  ended : ∃ inner t, line = inner ++ [t] ∧ endsPhysical t = true ∧
    ∀ p ∈ inner, endsPhysical p = false

theorem not_leads_of_ends {t : Piece} (ended : endsPhysical t = true) : t.leads = false := by
  unfold Piece.leads
  simp only [endsPhysical, Bool.or_eq_true, beq_iff_eq] at ended
  rcases ended with kind | kind <;> simp [kind]

/-- The body of a physical line: its end alone, or a first piece of its own and the rest. -/
theorem Segment.body {line : List Piece} (segment : Segment line) :
    (∃ t, bodyOf line = [t] ∧ endsPhysical t = true) ∨
      ∃ p body t, bodyOf line = p :: (body ++ [t]) ∧ endsPhysical p = false ∧
        endsPhysical t = true ∧ ∀ q ∈ body, endsPhysical q = false := by
  obtain ⟨inner, t, rfl, ended, inside⟩ := segment.ended
  unfold bodyOf
  rw [List.dropWhile_append]
  cases front : inner.dropWhile Piece.leads with
  | nil =>
    refine .inl ⟨t, ?_, ended⟩
    simp [not_leads_of_ends ended]
  | cons p body =>
    have within : ∀ q ∈ p :: body, endsPhysical q = false :=
      fun q member => inside q (List.dropWhile_sublist _ |>.subset (front ▸ member))
    refine .inr ⟨p, body, t, by simp, within p List.mem_cons_self, ended, ?_⟩
    exact fun q member => within q (List.mem_cons_of_mem _ member)

/-- **What one physical line does to the counts:** nothing if it is empty, else what its first bytes
say at its column. -/
theorem goes_segment {line more : List Piece} (segment : Segment line) {bytes : List UInt8}
    (lexed : Lexed bytes (line ++ more)) {s : Scan} (fresh : s.Fresh) :
    ∃ s' rest, Scan.Goes s bytes s' rest ∧ Lexed rest more ∧ s'.Fresh ∧
      ((bodyOf line).head?.map Piece.kind = some .newline ∧ s'.chainAt = s.chainAt ∨
        (bodyOf line).head?.map Piece.kind ≠ some .newline ∧
        ∃ s₀ : Scan, s₀.indent = indentOf line ∧ s₀.chainAt = s.chainAt ∧
          s'.chainAt = (s₀.settle (textOf (bodyOf line) ++ textOf more)).chainAt ∧
          s'.shape.blockChain =
            (s₀.settle (textOf (bodyOf line) ++ textOf more)).shape.blockChain) := by
  rcases segment.body with ⟨t, body, ended⟩ | ⟨p, body, t, whole, plain, ended, inside⟩
  · by_cases newline : t.kind = .newline
    · rw [← leads_line line, List.append_assoc, body] at lexed
      obtain ⟨s₀, rest₀, goes₀, lexed₀, start₀, _, chains₀, _⟩ :=
        goes_leading (leads_takeWhile line) lexed fresh.1
      have beside : Beside s₀ rest₀ rest₀ := ⟨.inl rfl, fun _ => rfl⟩
      obtain ⟨rest, s', x', _, lexed', passed⟩ := beside.pass lexed₀
      obtain ⟨fresh', chains', _⟩ := passed.lined.newline newline
      obtain rfl : x' = rest := passed.beside.start fresh'.1
      refine ⟨s', x', goes₀.trans passed.goes, lexed', fresh', .inl ⟨?_, chains'.trans chains₀⟩⟩
      rw [body, ← newline]
      rfl
    · have continuation : t.kind = .continuation := by simpa [endsPhysical, newline] using ended
      obtain ⟨s₀, s', x', rest, goes, lexed', beside, indent, chains, at', effect⟩ :=
        goes_opening body newline lexed fresh
      rw [if_pos continuation] at at'
      obtain rfl : x' = rest := beside.start at'.1
      exact ⟨s', x', goes, lexed', at', .inr ⟨by simp [body, newline], s₀, indent, chains, effect⟩⟩
  · simp only [endsPhysical, Bool.or_eq_false_iff, beq_eq_false_iff_ne] at plain
    obtain ⟨s₀, s₁, x₁, rest₁, goes₁, lexed₁, beside, indent, chains, at₁, chains₁, most₁⟩ :=
      goes_opening whole plain.1 lexed fresh
    rw [if_neg plain.2] at at₁
    rw [List.append_assoc, List.singleton_append] at lexed₁
    obtain ⟨s', rest, goes', lexed', fresh', chains', most'⟩ :=
      goes_settled inside ended lexed₁ beside at₁
    exact ⟨s', rest, goes₁.trans goes', lexed', fresh',
      .inr ⟨by simp [whole, plain.1], s₀, indent, chains, chains'.trans chains₁,
        most'.trans most₁⟩⟩

theorem goes_quiet {n : ℕ} {line more : List Piece} (segment : Segment line)
    (quiet : Quiet n line) {bytes : List UInt8} (lexed : Lexed bytes (line ++ more)) {s : Scan}
    (fresh : s.Fresh) :
    ∃ s' rest, Scan.Goes s bytes s' rest ∧ Lexed rest more ∧ s'.Fresh ∧
      s.chainAt n ≤ s'.chainAt n := by
  obtain ⟨s', rest, goes, lexed', fresh', effect⟩ := goes_segment segment lexed fresh
  refine ⟨s', rest, goes, lexed', fresh', ?_⟩
  rcases effect with ⟨_, same⟩ | ⟨code, s₀, indent, chains, settled, _⟩
  · rw [same]
  · rw [settled, ← chains]
    by_cases here : indentOf line = n
    · have column : s₀.indent = n := indent.trans here
      subst column
      rw [s₀.settle_here]
      rcases quiet here with newline | elif | else'
      · exact absurd newline code
      · rw [entry_elif (isPrefixOf_append elif)]
        exact Nat.le_succ _
      · exact entry_else (isPrefixOf_append else')
    · rw [Scan.settle_elsewhere (indent.trans_ne here)]

theorem goes_quiets {n : ℕ} {group : List (List Piece)} {more : List Piece}
    (segments : ∀ line ∈ group, Segment line) (quiet : ∀ line ∈ group, Quiet n line)
    {bytes : List UInt8} (lexed : Lexed bytes (group.flatten ++ more)) {s : Scan}
    (fresh : s.Fresh) :
    ∃ s' rest, Scan.Goes s bytes s' rest ∧ Lexed rest more ∧ s'.Fresh ∧
      s.chainAt n ≤ s'.chainAt n := by
  induction group generalizing bytes s with
  | nil => exact ⟨s, bytes, .refl s bytes, lexed, fresh, le_rfl⟩
  | cons line group ih =>
    rw [List.flatten_cons, List.append_assoc] at lexed
    obtain ⟨s₁, rest₁, goes₁, lexed₁, fresh₁, kept₁⟩ :=
      goes_quiet (segments line List.mem_cons_self) (quiet line List.mem_cons_self) lexed fresh
    obtain ⟨s', rest', goes', lexed', fresh', kept'⟩ :=
      ih (fun l member => segments l (List.mem_cons_of_mem _ member))
        (fun l member => quiet l (List.mem_cons_of_mem _ member)) lexed₁ fresh₁
    exact ⟨s', rest', goes₁.trans goes', lexed', fresh', kept₁.trans kept'⟩

/-! ### Branches -/

theorem lexed_append {front more : List Piece} {bytes : List UInt8}
    (lexed : Lexed bytes (front ++ more)) : ∃ rest, Lexed rest more := by
  induction front generalizing bytes with
  | nil => exact ⟨bytes, lexed⟩
  | cons p front ih =>
    obtain ⟨rest, _, _, lexed⟩ := lexed_cons lexed
    exact ih lexed

/-- A line that begins with a word has a first piece, and it is no newline. -/
theorem first_of_beginsWith {word : String} {line more : List Piece}
    (some : bytesOf word ≠ []) (plain : (bytesOf word).head? ≠ Option.some Byte.newline)
    (begins : beginsWith word line = true) {bytes : List UInt8}
    (lexed : Lexed bytes (line ++ more)) :
    ∃ p body, bodyOf line = p :: body ∧ p.kind ≠ .newline := by
  cases first : bodyOf line with
  | nil =>
    unfold beginsWith at begins
    rw [first, List.isPrefixOf_iff_prefix] at begins
    exact absurd (List.prefix_nil.mp begins) some
  | cons p body =>
    refine ⟨p, body, rfl, ?_⟩
    intro newline
    rw [← leads_line line, List.append_assoc, first] at lexed
    obtain ⟨rest, lexed⟩ := lexed_append lexed
    obtain ⟨_, _, foot, _⟩ := lexed_cons lexed
    have bytes : p.bytes = [Byte.newline] := by
      rw [newline] at foot
      generalize p.bytes = taken at foot
      cases foot with
      | newline => rfl
      | run kinds => cases kinds
    unfold beginsWith textOf at begins
    rw [first, List.flatMap_cons, bytes] at begins
    cases letters : bytesOf word with
    | nil => exact some letters
    | cons a more =>
      rw [letters] at begins plain
      simp only [List.singleton_append, List.isPrefixOf, Bool.and_eq_true, beq_iff_eq] at begins
      exact plain (by rw [begins.1]; rfl)

/-- A branch at the column with `k` branches of its ladder before it. -/
structure Opens (n k : ℕ) (s : Scan) (line : List Piece) : Prop where
  column : indentOf line = n
  keyword : beginsWith "elif" line = true ∧ k ≤ s.chainAt n ∨
    (beginsWith "if " line = true ∨ beginsWith "if(" line = true) ∧ k = 0

theorem Opens.first {n k : ℕ} {s : Scan} {line more : List Piece} (opens : Opens n k s line)
    {bytes : List UInt8} (lexed : Lexed bytes (line ++ more)) :
    ∃ p body, bodyOf line = p :: body ∧ p.kind ≠ .newline := by
  rcases opens.keyword with ⟨elif, _⟩ | ⟨space | bracket, _⟩
  · exact first_of_beginsWith (by decide +kernel) (by decide +kernel) elif lexed
  · exact first_of_beginsWith (by decide +kernel) (by decide +kernel) space lexed
  · exact first_of_beginsWith (by decide +kernel) (by decide +kernel) bracket lexed

theorem Opens.settle {n k : ℕ} {s s₀ : Scan} {line : List Piece} (opens : Opens n k s line)
    (column : s₀.indent = n) (chains : s₀.chainAt = s.chainAt) (more : List UInt8) :
    k + 1 ≤ (s₀.settle (textOf (bodyOf line) ++ more)).chainAt n ∧
      k + 1 ≤ (s₀.settle (textOf (bodyOf line) ++ more)).shape.blockChain := by
  subst column
  rw [s₀.settle_here]
  have counts : k + 1 ≤ Scan.entry (s₀.chainAt s₀.indent) (textOf (bodyOf line) ++ more) := by
    rcases opens.keyword with ⟨elif, before⟩ | ⟨keyword, rfl⟩
    · rw [entry_elif (isPrefixOf_append elif), chains]
      omega
    · rw [entry_if (keyword.imp isPrefixOf_append isPrefixOf_append)]
  refine ⟨counts, counts.trans (Scan.settle_branch ?_)⟩
  rcases opens.keyword with ⟨elif, _⟩ | ⟨keyword, _⟩
  · exact .inl (isPrefixOf_append elif)
  · exact .inr (keyword.imp isPrefixOf_append isPrefixOf_append)

/-- A logical line with its end. -/
def Ended (line : List Piece) : Prop :=
  ∃ inner t, line = inner ++ [t] ∧ t.kind = .newline

theorem Ended.segments {line : List Piece} (ended : Ended line) :
    ∀ l ∈ physical line, Segment l := by
  obtain ⟨inner, t, rfl, newline⟩ := ended
  intro l member
  exact ⟨split_ended 0 (by simp [endsPhysical, newline]) l member⟩

theorem physical_flatten (line : List Piece) : (physical line).flatten = line :=
  split_flatten 0 line

theorem flatMap_physical (group : List (List Piece)) :
    (group.flatMap physical).flatten = group.flatten := by
  induction group with
  | nil => rfl
  | cons line group ih =>
    rw [List.flatMap_cons, List.flatten_append, physical_flatten, ih, List.flatten_cons]

/-- The lines of the rungs above a branch. -/
def rungLines (rungs : List Rung) : List (List Piece) :=
  rungs.flatMap fun r => r.between ++ [r.branch]

/-- What follows a physical line is after its margin and after its body. -/
theorem Segment.append {line : List Piece} (segment : Segment line) (after : List Piece) :
    indentOf (line ++ after) = indentOf line ∧ bodyOf (line ++ after) = bodyOf line ++ after := by
  obtain ⟨p, body, first⟩ : ∃ p body, bodyOf line = p :: body := by
    rcases segment.body with ⟨t, body, _⟩ | ⟨p, body, t, whole, _⟩
    · exact ⟨t, [], body⟩
    · exact ⟨p, _, whole⟩
  have code : ¬ p.leads = true := by simp [bodyOf_head first]
  have whole : line ++ after = line.takeWhile Piece.leads ++ p :: (body ++ after) := by
    rw [← List.cons_append, ← first, ← List.append_assoc, leads_line]
  constructor
  · unfold indentOf
    rw [whole, List.takeWhile_append_of_pos (leads_takeWhile line), List.takeWhile_cons,
      if_neg code, List.append_nil]
  · rw [first]
    unfold bodyOf
    rw [whole, List.dropWhile_append_of_pos (leads_takeWhile line), List.dropWhile_cons,
      if_neg code, List.cons_append]

theorem textOf_append (front back : List Piece) :
    textOf (front ++ back) = textOf front ++ textOf back :=
  List.flatMap_append

/-- **From the start of a branch, the scan's chain reaches the end of its ladder.** -/
theorem goes_rungs {n k : ℕ} {branch : List Piece} {rungs : List Rung} (clear : Clear n branch rungs)
    (ended : ∀ line ∈ (branch :: rungLines rungs).dropLast, Ended line) {more : List Piece}
    {bytes : List UInt8} (lexed : Lexed bytes ((branch :: rungLines rungs).flatten ++ more))
    {s : Scan} (fresh : s.Fresh) (opens : Opens n k s branch) :
    ∃ s' x', Scan.Goes s bytes s' x' ∧ k + 1 + rungs.length ≤ s'.shape.blockChain := by
  induction rungs generalizing branch k bytes s with
  | nil =>
    rw [rungLines, List.flatMap_nil, List.flatten_singleton] at lexed
    obtain ⟨p, body, first, code⟩ := opens.first lexed
    obtain ⟨s₀, s', x', rest, goes, _, _, indent, chains, _, _, most⟩ :=
      goes_opening first code lexed fresh
    refine ⟨s', x', goes, ?_⟩
    rw [most]
    exact (opens.settle (indent.trans opens.column) chains _).2
  | cons r rungs ih =>
    obtain ⟨quiet, ⟨column, elif⟩, clear⟩ := clear
    have lines : rungLines (r :: rungs) = r.between ++ r.branch :: rungLines rungs := by
      simp [rungLines]
    have tailSome : r.branch :: rungLines rungs ≠ [] := by simp
    rw [lines] at lexed ended
    rw [← List.cons_append, List.dropLast_append_of_ne_nil tailSome] at ended
    have endedBranch : Ended branch := ended branch (by simp)
    -- the physical lines of the branch, its first one apart
    cases pieces : physical branch with
    | nil =>
      obtain ⟨inner, t, rfl, _⟩ := endedBranch
      have flat := physical_flatten (inner ++ [t])
      simp [pieces] at flat
    | cons line tail =>
      have segments := endedBranch.segments
      rw [pieces] at segments quiet
      have segment := segments line List.mem_cons_self
      have whole : branch = line ++ tail.flatten := by
        rw [← physical_flatten branch, pieces, List.flatten_cons]
      obtain ⟨sameIndent, sameBody⟩ := segment.append tail.flatten
      rw [← whole] at sameIndent sameBody
      have read : Lexed bytes
          (branch ++ ((r.between ++ r.branch :: rungLines rungs).flatten ++ more)) := by
        rwa [List.flatten_cons, List.append_assoc] at lexed
      obtain ⟨p, body, first, code⟩ := opens.first read
      have split : (branch :: (r.between ++ r.branch :: rungLines rungs)).flatten ++ more =
          line ++ ((tail ++ r.between.flatMap physical).flatten ++
            ((r.branch :: rungLines rungs).flatten ++ more)) := by
        rw [List.flatten_cons, List.flatten_append, List.flatten_append, flatMap_physical, whole]
        simp only [List.append_assoc]
      rw [split] at lexed
      obtain ⟨s₁, rest₁, goes₁, lexed₁, fresh₁, effect⟩ := goes_segment segment lexed fresh
      have counted : k + 1 ≤ s₁.chainAt n := by
        rcases effect with ⟨newline, _⟩ | ⟨_, s₀, indent, chains, settled, _⟩
        · refine absurd ?_ code
          cases own : bodyOf line with
          | nil => simp [own] at newline
          | cons q more =>
            rw [sameBody, own, List.cons_append] at first
            rw [own] at newline
            cases first
            simpa using newline
        · have text : textOf (bodyOf line) ++ textOf ((tail ++ r.between.flatMap physical).flatten ++
                ((r.branch :: rungLines rungs).flatten ++ more)) =
              textOf (bodyOf branch) ++ textOf ((r.between.flatMap physical).flatten ++
                ((r.branch :: rungLines rungs).flatten ++ more)) := by
            rw [sameBody, List.flatten_append]
            simp only [textOf_append, List.append_assoc]
          rw [settled, text]
          exact (opens.settle (indent.trans (sameIndent.symm.trans opens.column)) chains _).1
      have middle : ∀ l ∈ tail ++ r.between.flatMap physical, Segment l := by
        intro l member
        rcases List.mem_append.mp member with inTail | inSuite
        · exact segments l (List.mem_cons_of_mem _ inTail)
        · obtain ⟨between, inBetween, inLine⟩ := List.mem_flatMap.mp inSuite
          exact (ended between (by simp [inBetween])).segments l inLine
      obtain ⟨s₂, rest₂, goes₂, lexed₂, fresh₂, kept⟩ :=
        goes_quiets middle (fun l member => quiet l member) lexed₁ fresh₁
      obtain ⟨s', x', goes', count⟩ := ih clear
        (fun l member => ended l (List.mem_append_right _ member)) lexed₂ fresh₂
        ⟨column, .inl ⟨elif, counted.trans kept⟩⟩
      refine ⟨s', x', goes₁.trans (goes₂.trans goes'), ?_⟩
      rw [List.length_cons]
      omega

/-! ### Ladders of a text -/

/-- The lines of a ladder, from its `if` to its last `elif`. -/
def Ladder.lines (l : Ladder) : List (List Piece) :=
  l.first :: rungLines l.rungs

theorem climb_within (column : List UInt8 → ℕ) (first : List Piece) (between rest : List (List Piece)) :
    rungLines (climb column first between rest) <+: between ++ rest := by
  induction rest generalizing between with
  | nil => exact List.nil_prefix
  | cons line rest ih =>
    rw [climb]
    split_ifs with deeper elif
    · have := ih (between ++ [line])
      rwa [List.append_assoc, List.singleton_append] at this
    · have later := ih []
      rw [List.nil_append] at later
      rw [rungLines, List.flatMap_cons, List.append_assoc]
      exact (List.prefix_append_right_inj between).mpr
        ((List.prefix_append_right_inj [line]).mpr later)
    · exact List.nil_prefix

theorem ladders_within {column : List UInt8 → ℕ} {group : List (List Piece)} {l : Ladder}
    (member : l ∈ ladders column group) : l.lines <:+: group := by
  induction group with
  | nil => cases member
  | cons line rest ih =>
    rw [ladders] at member
    have later : l ∈ ladders column rest → l.lines <:+: line :: rest :=
      fun inRest => (ih inRest).trans (List.suffix_cons line rest).isInfix
    split_ifs at member
    · rcases List.mem_cons.mp member with rfl | inRest
      · exact ((List.prefix_cons_inj line).mpr (climb_within column line [] rest)).isInfix
      · exact later inRest
    · exact later member

theorem lines_ended (pieces : List Piece) :
    ∀ line ∈ (lines pieces).dropLast, Ended line := by
  intro line member
  obtain ⟨inner, last, depth, rfl, ended⟩ := split_dropLast 0 pieces line member
  simp only [endsLine, Bool.and_eq_true, beq_iff_eq] at ended
  exact ⟨inner, last, rfl, ended.1⟩

/-- A line that is not the last of a stretch is not the last of the text. -/
theorem mem_dropLast_within {A : Type} {inner front back : List A} {a : A}
    (member : a ∈ inner.dropLast) : a ∈ (front ++ inner ++ back).dropLast := by
  cases back with
  | nil =>
    cases inner with
    | nil => cases member
    | cons b inner =>
      rw [List.append_nil, List.dropLast_append_of_ne_nil (by simp)]
      exact List.mem_append_right _ member
  | cons b back =>
    rw [List.dropLast_append_of_ne_nil (by simp)]
    exact List.mem_append_left _ (List.mem_append_right _ (List.mem_of_mem_dropLast member))

theorem getLast_ended {before : List (List Piece)} (ended : ∀ line ∈ before, Ended line) :
    ∀ p ∈ before.flatten.getLast?, p.kind = .newline := by
  intro p last
  rcases List.eq_nil_or_concat before with rfl | ⟨front, line, rfl⟩
  · simp at last
  · obtain ⟨inner, t, rfl, newline⟩ := ended line (by simp)
    rw [List.concat_eq_append, List.flatten_append, List.flatten_singleton, ← List.append_assoc,
      List.getLast?_concat] at last
    cases last
    exact newline

/-- **A ladder that the scan counts in full is no longer than the chain.** -/
theorem branches_le {bytes : List UInt8} {pieces : List Piece} (lexed : Lexed bytes pieces)
    {l : Ladder} (inText : l.lines <:+: lines pieces) (plain : Plain l) :
    l.branches ≤ (scan bytes).blockChain := by
  obtain ⟨before, after, whole⟩ := inText
  have ended := lines_ended pieces
  rw [← whole] at ended
  have flat : pieces = before.flatten ++ (l.lines.flatten ++ after.flatten) := by
    have all : (lines pieces).flatten = pieces := split_flatten 0 pieces
    rw [← all, ← whole]
    simp
  rw [flat] at lexed
  have beside : Beside .start bytes bytes := ⟨.inl rfl, fun _ => rfl⟩
  obtain ⟨s, x, rest, goes, lexed', beside', fresh⟩ := goes_pieces lexed beside
  have endedBefore : ∀ line ∈ before, Ended line := by
    intro line member
    refine ended line ?_
    rw [List.append_assoc, List.dropLast_append_of_ne_nil (by simp [Ladder.lines])]
    exact List.mem_append_left _ member
  have fresh := fresh (fun _ => ⟨rfl, rfl⟩) (getLast_ended endedBefore)
  obtain rfl : x = rest := beside'.start fresh.1
  obtain ⟨s', x', goes', count⟩ := goes_rungs (k := 0) plain.2
    (fun line member => ended line (mem_dropLast_within member)) lexed' fresh
    ⟨rfl, .inr ⟨plain.1, rfl⟩⟩
  have reached := chain_le_scan (goes.trans goes')
  unfold Ladder.branches
  omega

/-- The chain bounds every ladder of the source: no ladder has more branches than the measure says,
and none that is let through to the parser has more than the limit. -/
def BoundsLadders (column : List UInt8 → ℕ) (source : String) : Prop :=
  ∀ pieces, lex (bytesOf source) = some pieces → ∀ l ∈ ladders column (lines pieces),
    l.branches ≤ (measure source).blockChain ∧
      ∀ limits, checkShape limits source = .ok () → l.branches ≤ limits.maxBlockChain

/-- **Where the scan counts every ladder in full, the chain bounds them all.** -/
theorem ladders_bounded (column : List UInt8 → ℕ) (source : String)
    (plain : ∀ pieces, lex (bytesOf source) = some pieces →
      ∀ l ∈ ladders column (lines pieces), Plain l) : BoundsLadders column source := by
  intro pieces read l member
  have chained : l.branches ≤ (measure source).blockChain :=
    branches_le (lexed_of_lex read) (ladders_within member) (plain pieces read l member)
  refine ⟨chained, ?_⟩
  intro limits passed
  exact chained.trans (checkShape_ok passed).2.2.2.1

theorem ladders_bounded_else :
    BoundsLadders List.length "if a:\n  x = f(\n    1)\n\nelif b:\n  y\nelse:\n  z\n" :=
  ladders_bounded List.length "if a:\n  x = f(\n    1)\n\nelif b:\n  y\nelse:\n  z\n"
    (show ∀ pieces ∈ lex (bytesOf "if a:\n  x = f(\n    1)\n\nelif b:\n  y\nelse:\n  z\n"),
      ∀ l ∈ ladders List.length (lines pieces), Plain l by decide +kernel)

/-- A comment between two branches: a ladder of two, and a chain of one. -/
theorem commented_outgrows : ¬ BoundsLadders List.length "if a:\n  x\n# c\nelif b:\n  y\n" := by
  intro bounded
  obtain ⟨pieces, read⟩ := Option.isSome_iff_exists.mp
    (show (lex (bytesOf "if a:\n  x\n# c\nelif b:\n  y\n")).isSome = true by decide +kernel)
  have two : ∀ pieces ∈ lex (bytesOf "if a:\n  x\n# c\nelif b:\n  y\n"),
      ∃ l ∈ ladders List.length (lines pieces), l.branches = 2 := by decide +kernel
  obtain ⟨l, member, count⟩ := two pieces read
  have chained := (bounded pieces read l member).1
  rw [count, show (measure "if a:\n  x\n# c\nelif b:\n  y\n").blockChain = 1 by
    decide +kernel] at chained
  omega

end HullCi.Plan
