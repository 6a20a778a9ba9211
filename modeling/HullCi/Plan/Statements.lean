/-
**The weight of a statement against its tokens.**

The scan passes a text one piece after the other, and wherever a piece starts where the scan starts
an item, the item weighs at least one. A run that holds more than one token, and a line joined by a
backslash before a carriage return, are where the weight falls short.

* `goes_covers` — the scan's way to the end covers every statement.
* `statements_bounded` — where no two words touch and no backslash outside brackets stands before a
  carriage return, the weight bounds the tokens of every statement.
* `dotted_outweighs` — a dotted name has more tokens than its statement weighs.
-/

import HullCi.Plan.Passage

namespace HullCi.Plan

/-! ### Statements -/

/-- No two of the pieces made of word bytes touch: no name, number or dot stands right next to
another one. -/
def Apart (pieces : List Piece) : Prop :=
  pieces.IsChain fun p q => p.kind.isWord = true → q.kind.isWord = false

/-- Outside brackets, a backslash that continues a line stands right before the newline. -/
def Joined : ℕ → List Piece → Prop
  | _, [] => True
  | depth, p :: rest =>
    (p.kind = .continuation → depth = 0 → p.bytes = [Byte.backslash, Byte.newline]) ∧
      Joined (p.depth depth) rest

instance : DecidablePred Apart := fun pieces =>
  inferInstanceAs (Decidable (pieces.IsChain _))

instance Joined.decidable : ∀ depth pieces, Decidable (Joined depth pieces)
  | _, [] => .isTrue trivial
  | depth, p :: rest =>
    @instDecidableAnd _ _ inferInstance (Joined.decidable (p.depth depth) rest)

/-- A bound on the tokens of every group, with some of the first group already counted. -/
def Covers (bound counted : ℕ) : List (List Piece) → Prop
  | [] => counted ≤ bound
  | group :: more => counted + tokens group ≤ bound ∧ ∀ g ∈ more, tokens g ≤ bound

theorem Covers.all {bound : ℕ} {groups : List (List Piece)} (covers : Covers bound 0 groups) :
    ∀ g ∈ groups, tokens g ≤ bound := by
  cases groups with
  | nil => simp
  | cons group more =>
    intro g member
    rcases List.mem_cons.mp member with rfl | member
    · simpa using covers.1
    · exact covers.2 g member

theorem tokens_cons (p : Piece) (rest : List Piece) :
    tokens (p :: rest) = (if p.kind.isToken then 1 else 0) + tokens rest := by
  unfold tokens
  rw [List.countP_cons, Nat.add_comm]

/-- A piece that ends no statement does not cut, where the backslashes are joined. -/
theorem not_cuts {depth : ℕ} {p : Piece} {rest : List Piece} (joined : Joined depth (p :: rest))
    (unended : endsStatement depth p = false) : ¬ Cuts depth p := by
  rintro ⟨rfl, newline | semicolon | ⟨continuation, cut⟩⟩
  · simp [endsStatement, endsLine, newline] at unended
  · simp [endsStatement, semicolon] at unended
  · exact cut (joined.1 continuation rfl)

/-- **The scan's way to the end covers every statement.** -/
theorem goes_covers {bytes : List UInt8} {pieces : List Piece} (lexed : Lexed bytes pieces)
    (apart : Apart pieces) {s : Scan} (joined : Joined s.depth pieces) {x : List UInt8}
    (beside : Beside s x bytes) (first : ∀ p ∈ pieces.head?, p.kind.isWord = true → x = bytes)
    {counted : ℕ} (weighed : counted ≤ s.weight) :
    ∃ s', Scan.Goes s x s' [] ∧
      Covers s'.heaviest counted (split endsStatement s.depth pieces) := by
  induction pieces generalizing bytes s x counted with
  | nil =>
    cases lexed
    obtain rfl : x = [] := by rcases beside.near with same | same <;> simpa using same
    exact ⟨s, .refl s [], weighed.trans (le_max_right _ _)⟩
  | cons p pieces ih =>
    obtain ⟨rest, s₁, x₁, whole, lexed₁, passed⟩ := beside.pass lexed
    have apart₁ : Apart pieces := apart.tail
    have joined₁ : Joined s₁.depth pieces := passed.depth ▸ joined.2
    have first₁ : ∀ q ∈ pieces.head?, q.kind.isWord = true → x₁ = rest := by
      intro q head word
      by_cases before : p.kind.isWord = true
      · cases pieces with
        | nil => cases head
        | cons r more =>
          obtain rfl : r = q := by simpa using head
          have stops := (List.isChain_cons_cons.mp apart).1 before
          rw [word] at stops
          cases stops
      · exact passed.exact (Bool.eq_false_iff.mpr before)
    by_cases ends : endsStatement s.depth p = true
    · obtain ⟨s', goes', covers⟩ := ih lexed₁ apart₁ joined₁ passed.beside first₁ (Nat.zero_le _)
      refine ⟨s', passed.goes.trans goes', ?_⟩
      have reached := Scan.heaviest_goes (passed.goes.trans goes')
      have before : counted ≤ s.heaviest := weighed.trans (le_max_right _ _)
      have none : p.kind.isToken = false := by
        cases kind : p.kind <;> first | rfl | simp [endsStatement, endsLine, kind] at ends
      rw [split, if_pos ends, ← passed.depth]
      refine ⟨?_, covers.all⟩
      rw [tokens_cons]
      simp only [none, Bool.false_eq_true, if_false, tokens, List.countP_nil]
      omega
    · have heavier : s.weight + (if p.kind.isToken then 1 else 0) ≤ s₁.weight :=
        passed.weight (fun word => (first _ rfl word).trans whole)
          (not_cuts joined (Bool.eq_false_iff.mpr ends))
      have room : counted + (if p.kind.isToken then 1 else 0) ≤ s₁.weight := by omega
      obtain ⟨s', goes', covers⟩ := ih lexed₁ apart₁ joined₁ passed.beside first₁ room
      refine ⟨s', passed.goes.trans goes', ?_⟩
      rw [split, if_neg ends, ← passed.depth]
      cases groups : split endsStatement s₁.depth pieces with
      | nil =>
        rw [groups] at covers
        refine ⟨?_, by simp⟩
        rw [tokens_cons]
        exact covers
      | cons group more =>
        rw [groups] at covers
        refine ⟨?_, covers.2⟩
        rw [tokens_cons, ← Nat.add_assoc]
        exact covers.1

/-- Every statement of the source weighs at least its tokens: no statement has more than the
measure says, and none that is let through to the parser has more than the limit. -/
def BoundsStatements (source : String) : Prop :=
  ∀ pieces, lex (bytesOf source) = some pieces → ∀ st ∈ statements pieces,
    tokens st ≤ (measure source).statementWeight ∧
      ∀ limits, checkShape limits source = .ok () → tokens st ≤ limits.maxStatementWeight

/-- **Where no two words touch and the backslashes outside brackets stand right before their
newlines, the weight bounds every statement.** -/
theorem statements_bounded (source : String)
    (plain : ∀ pieces, lex (bytesOf source) = some pieces → Apart pieces ∧ Joined 0 pieces) :
    BoundsStatements source := by
  intro pieces read st member
  obtain ⟨apart, joined⟩ := plain pieces read
  obtain ⟨s, goes, covers⟩ := goes_covers (s := .start) (lexed_of_lex read) apart joined
    ⟨.inl rfl, fun _ => rfl⟩ (fun _ _ _ => rfl) (Nat.zero_le _)
  have weighs : tokens st ≤ (measure source).statementWeight :=
    (covers.all st member).trans (heaviest_le_scan goes)
  refine ⟨weighs, ?_⟩
  intro limits passed
  exact weighs.trans (checkShape_ok passed).2.2.1

theorem statements_bounded_call : BoundsStatements "x = f(1) + \\\n  y\n" :=
  statements_bounded "x = f(1) + \\\n  y\n"
    (show ∀ pieces ∈ lex (bytesOf "x = f(1) + \\\n  y\n"), Apart pieces ∧ Joined 0 pieces by
      decide +kernel)

/-- A dotted name: five tokens in a statement of weight one. -/
theorem dotted_outweighs : ¬ BoundsStatements "a.b.c\n" := by
  intro bounded
  obtain ⟨pieces, read⟩ := Option.isSome_iff_exists.mp
    (show (lex (bytesOf "a.b.c\n")).isSome = true by decide +kernel)
  have five : ∀ pieces ∈ lex (bytesOf "a.b.c\n"), ∃ st ∈ statements pieces, tokens st = 5 := by
    decide +kernel
  obtain ⟨st, member, count⟩ := five pieces read
  have weighs := (bounded pieces read st member).1
  rw [count, show (measure "a.b.c\n").statementWeight = 1 by decide +kernel] at weighs
  omega

end HullCi.Plan
