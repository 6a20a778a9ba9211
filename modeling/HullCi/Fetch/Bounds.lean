/-
**What one extraction can cost.**

Four caps are checked at four places: the entries as they come, the bytes of a file and of the tree
as they are copied, the depth of a path, and the bytes of the archive as they are read. A directory
above an entry is made for it and is not counted.

* `Capped.handed_le` — the parser is handed no more than the archive's cap.
* `Bounded` — what holds at every moment of the paths claimed, the objects made, the bytes copied.
* `bounded_entries`, `slim_entries` — a run of entries keeps it, and accepts no file over the cap.
* `extraction_bounded` — the bounds; `implicit_dirs_uncounted` — the directories above an entry are
  not among the entries.
-/

import HullCi.Fetch.Collisions
import HullCi.Fetch.Links
import Mathlib.Algebra.Order.BigOperators.Group.List
import Mathlib.Data.Nat.Cast.Basic

namespace HullCi.Fetch

open HullCi.Base

/-! ### The archive's bytes -/

/-- A reader that dies at a byte budget. -/
structure Capped (R : Type) where
  inner : R
  remaining : ℕ
  tripped : Bool := false

def capSentinel : String := "hull-ci-fetch: archive byte cap exceeded"

namespace Capped

variable {R : Type} (source : R → ℕ → R × Except String (List UInt8))

/-- `read` into a buffer: what it hands over, or the error it ends in. -/
def read (c : Capped R) (length : ℕ) : Capped R × Except String (List UInt8) :=
  if c.tripped then (c, .error capSentinel)
  else
    -- one byte past the budget is asked for, to tell a full budget from a broken one
    let want := min length (min (c.remaining + 1) (2 ^ 64 - 1))
    match source c.inner want with
    | (inner, .error e) => ({ c with inner }, .error e)
    | (inner, .ok bytes) =>
      if c.remaining < bytes.length then ({ c with inner, tripped := true }, .error capSentinel)
      else ({ c with inner, remaining := c.remaining - bytes.length }, .ok bytes)

/-- All that a run of reads hands over. -/
def handed (c : Capped R) : List ℕ → List UInt8
  | [] => []
  | length :: more =>
    match c.read source length with
    | (c, .ok bytes) => bytes ++ handed c more
    | (c, .error _) => handed c more

theorem read_ok {c c' : Capped R} {length : ℕ} {bytes : List UInt8}
    (read : c.read source length = (c', .ok bytes)) :
    bytes.length + c'.remaining = c.remaining := by
  unfold Capped.read at read
  split at read
  · cases read
  · dsimp only at read
    split at read
    · cases read
    · split at read
      · cases read
      · rename_i within
        cases read
        exact Nat.add_sub_cancel' (Nat.not_lt.mp within)

theorem read_error {c c' : Capped R} {length : ℕ} {e : String}
    (read : c.read source length = (c', .error e)) : c'.remaining = c.remaining := by
  unfold Capped.read at read
  split at read
  · cases read
    rfl
  · dsimp only at read
    split at read
    · cases read
      rfl
    · split at read
      · cases read
        rfl
      · cases read

/-- **The budget is on bytes handed over**, whatever the reader below answers. -/
theorem handed_le (c : Capped R) (lengths : List ℕ) :
    (c.handed source lengths).length ≤ c.remaining := by
  induction lengths generalizing c with
  | nil => exact Nat.zero_le _
  | cons length more ih =>
    show (match c.read source length with
      | (c, .ok bytes) => bytes ++ handed source c more
      | (c, .error _) => handed source c more).length ≤ _
    split
    · rename_i c' bytes read
      rw [List.length_append, ← read_ok source read]
      exact Nat.add_le_add_left (ih c') _
    · rename_i c' e read
      rw [← read_error source read]
      exact ih c'

end Capped

/-! ### Counting -/

/-- The entries an extraction has counted. -/
def Extracted.count (out : Extracted) : ℕ :=
  out.files + out.dirs + out.symlinks

/-- Nothing is counted, and the bytes copied stay within their cap. -/
structure Paced (cfg : Setting) (st st' : State) : Prop where
  count : st'.out.count = st.out.count
  bytes : st.out.bytes ≤ cfg.limits.maxTotalBytes → st'.out.bytes ≤ cfg.limits.maxTotalBytes

section Paced

variable {cfg : Setting}

theorem Paced.same {st st' : State} (out : st'.out = st.out) : Paced cfg st st' := by
  constructor
  · rw [out]
  · rw [out]
    exact id

theorem Paced.trans {st st' st'' : State} (first : Paced cfg st st') (second : Paced cfg st' st'') :
    Paced cfg st st'' :=
  ⟨second.count.trans first.count, fun within => second.bytes (first.bytes within)⟩

theorem paced_andThen {st : State} {r : Outcome} {next : State → Outcome}
    (first : Paced cfg st r.1) (rest : ∀ st', r = (st', none) → Paced cfg st' (next st').1) :
    Paced cfg st (r.andThen next).1 := by
  obtain ⟨st', error⟩ := r
  cases error with
  | some e => exact first
  | none => exact first.trans (rest st' rfl)

theorem paced_create (st : State) (rel : Path) (node : Node) :
    Paced cfg st (st.create cfg rel node).1 := by
  unfold State.create
  dsimp only
  split
  · exact .same rfl
  · split <;> exact .same rfl

theorem paced_makeDirs (st : State) (done rest : Path) :
    Paced cfg st (st.makeDirs cfg done rest).1 := by
  induction rest generalizing st done with
  | nil => exact .same rfl
  | cons c rest ih =>
    unfold State.makeDirs
    split
    · exact ih st (done ++ [c])
    · have made : Paced cfg st _ := paced_create st (done ++ [c]) .dir
      split
      · rename_i st' place created
        rw [created] at made
        have listed : Paced cfg st' { st' with dirs := (done ++ [c]) :: st'.dirs } := .same rfl
        exact (made.trans listed).trans (ih _ (done ++ [c]))
      · rename_i st' created
        rw [created] at made
        exact made

theorem paced_makeDirsFor (st : State) (rel : Path) (display : String) :
    Paced cfg st (st.makeDirsFor cfg rel display).1 := by
  have made : Paced cfg st _ := paced_makeDirs st [] rel
  unfold State.makeDirsFor
  split <;> rename_i ended <;> rw [ended] at made <;> exact made

theorem paced_makeParent (st : State) (rel : Path) (display : String) :
    Paced cfg st (st.makeParent cfg rel display).1 := by
  unfold State.makeParent
  split
  · exact .same rfl
  · exact paced_makeDirsFor st rel.dropLast display

theorem paced_copyData (st : State) (entry : Entry) (place : Path) :
    Paced cfg st (st.copyData cfg entry place).1 := by
  unfold State.copyData
  dsimp only
  split
  · exact .same rfl
  · split
    · exact .same rfl
    · split
      · exact .same rfl
      · split
        · exact .same rfl
        · rename_i fits
          refine ⟨rfl, fun within => ?_⟩
          have room := (Nat.not_lt.mp fits).trans (min_le_right _ _)
          show st.out.bytes + _ ≤ _
          omega

theorem paced_setMode (st : State) (rel : Path) (mode : ℕ) :
    Paced cfg st (st.setMode cfg rel mode).1 := by
  unfold State.setMode
  dsimp only
  split
  · exact .same rfl
  · split <;> exact .same rfl

theorem paced_writeFile (st : State) (entry : Entry) (rel : Path) (mode : ℕ) :
    Paced cfg st (st.writeFile cfg entry rel mode).1 := by
  unfold State.writeFile
  split
  · exact .same rfl
  · refine paced_andThen (paced_makeParent st rel entry.display) fun st₁ _ => ?_
    have made : Paced cfg st₁ _ := paced_create st₁ rel (.file [] 0o644)
    split
    · rename_i created
      rw [created] at made
      exact made
    · rename_i st₂ place created
      rw [created] at made
      exact made.trans (paced_andThen (paced_copyData st₂ entry place) fun st₃ _ =>
        paced_setMode st₃ rel mode)

theorem paced_writeSymlink (st : State) (rel : Path) (target : RawPath) (display : String) :
    Paced cfg st (st.writeSymlink cfg rel target display).1 := by
  unfold State.writeSymlink
  split
  · exact .same rfl
  · split
    · exact .same rfl
    · refine paced_andThen (paced_makeParent st rel display) fun st₁ _ => ?_
      have made : Paced cfg st₁ (st₁.symlink cfg rel target).1 := by
        unfold State.symlink
        split
        · exact .same rfl
        · exact paced_create st₁ rel (.symlink target)
      split
      · rename_i linked
        rw [linked] at made
        exact made
      · rename_i linked
        rw [linked] at made
        exact made.trans (.same rfl)

end Paced

/-! ### Every moment -/

/-- What holds of an extraction wherever it has come to. -/
structure Bounded (cfg : Setting) (r : Outcome) : Prop where
  entries : r.1.placed.length ≤ cfg.limits.maxEntries
  shallow : ∀ rel ∈ r.1.placed, rel.length ≤ cfg.limits.maxPathDepth
  below : ∀ m ∈ r.1.made, ∃ rel ∈ r.1.placed, m.asked <+: rel
  bytes : r.1.out.bytes ≤ cfg.limits.maxTotalBytes
  counted : r.2 = none → r.1.placed.length ≤ r.1.out.count

section Bounded

variable {cfg : Setting} {st : State}

theorem Bounded.refused (bounded : Bounded cfg (st, none)) (e : ExtractError) :
    Bounded cfg (st, some e) where
  entries := bounded.entries
  shallow := bounded.shallow
  below := bounded.below
  bytes := bounded.bytes
  counted accepted := by cases accepted

/-- **One entry's work**, after its claim: it makes objects at its path and above, and counts as one
when it is done. -/
theorem bounded_claimed (bounded : Bounded cfg (st, none))
    (room : st.out.count < cfg.limits.maxEntries) {rel : Path}
    (shallow : rel.length ≤ cfg.limits.maxPathDepth) (display : String)
    (tally : Extracted → Extracted) {work : State → Outcome}
    (grown : ∀ st₁, Grown rel st₁ (work st₁).1)
    (paced : ∀ st₁, Paced cfg st₁ (work st₁).1)
    (one : ∀ out, (tally out).count = out.count + 1 ∧ (tally out).bytes = out.bytes) :
    Bounded cfg ((st.claim cfg rel display).andThen fun st =>
      (work st).andThen fun st => ({ st with out := tally st.out }, none)) := by
  have counted := bounded.counted rfl
  unfold State.claim
  dsimp only
  cases st.claimed.lookup (cfg.nfc (lossy rel)) with
  | some prev =>
    exact ⟨bounded.entries, bounded.shallow, bounded.below, bounded.bytes,
      fun accepted => by cases accepted⟩
  | none =>
    dsimp only [Outcome.andThen]
    generalize claiming : ({ st with
      claimed := st.claimed.insert (cfg.nfc (lossy rel)) display
      placed := st.placed ++ [rel] } : State) = st₁
    have grown := grown st₁
    have paced := paced st₁
    have placed : st₁.placed = st.placed ++ [rel] := by rw [← claiming]
    have made : st₁.made = st.made := by rw [← claiming]
    have out : st₁.out = st.out := by rw [← claiming]
    rcases worked : work st₁ with ⟨st₂, error⟩
    rw [worked] at grown paced
    have placed : st₂.placed = st.placed ++ [rel] := grown.placed.trans placed
    have length : st₂.placed.length = st.placed.length + 1 := by simp [placed]
    have entries : st₂.placed.length ≤ cfg.limits.maxEntries :=
      calc st₂.placed.length = st.placed.length + 1 := length
        _ ≤ st.out.count + 1 := Nat.succ_le_succ counted
        _ ≤ cfg.limits.maxEntries := room
    have deep : ∀ q ∈ st₂.placed, q.length ≤ cfg.limits.maxPathDepth := by
      intro q member
      rw [placed] at member
      rcases List.mem_append.mp member with old | new
      · exact bounded.shallow q old
      · rw [List.mem_singleton.mp new]
        exact shallow
    have below : ∀ m ∈ st₂.made, ∃ q ∈ st₂.placed, m.asked <+: q := by
      intro m member
      rw [placed]
      rcases grown.new m member with old | above
      · rw [made] at old
        obtain ⟨q, member, pre⟩ := bounded.below m old
        exact ⟨q, List.mem_append_left _ member, pre⟩
      · exact ⟨rel, List.mem_append_right _ (List.mem_singleton_self _), above⟩
    have bytes : st₂.out.bytes ≤ cfg.limits.maxTotalBytes :=
      paced.bytes (by rw [out]; exact bounded.bytes)
    cases error with
    | some e => exact ⟨entries, deep, below, bytes, fun accepted => by cases accepted⟩
    | none =>
      refine ⟨entries, deep, below, ?_, fun _ => ?_⟩
      · show (tally st₂.out).bytes ≤ _
        rw [(one st₂.out).2]
        exact bytes
      · show st₂.placed.length ≤ (tally st₂.out).count
        rw [(one st₂.out).1, paced.count, out, length]
        exact Nat.succ_le_succ counted

theorem bounded_place (bounded : Bounded cfg (st, none))
    (room : st.out.count < cfg.limits.maxEntries) (entry : Entry) (mode : ℕ) {rel : Path}
    (shallow : rel.length ≤ cfg.limits.maxPathDepth) :
    Bounded cfg (st.place cfg entry mode rel) := by
  have file : Bounded cfg ((st.claim cfg rel entry.display).andThen fun st =>
      (st.writeFile cfg entry rel mode).andThen fun st =>
        ({ st with out := { st.out with files := st.out.files + 1 } }, none)) :=
    bounded_claimed bounded room shallow _ (fun out => { out with files := out.files + 1 })
      (fun st₁ => (grown_writeFile cfg st₁ entry rel mode).1)
      (fun st₁ => paced_writeFile st₁ entry rel mode)
      fun out => ⟨by unfold Extracted.count; dsimp only; omega, rfl⟩
  unfold State.place
  dsimp only
  split
  case h_1 =>
    exact bounded_claimed bounded room shallow _
      (fun out => { out with dirs := out.dirs + 1 })
      (fun st₁ => grown_makeDirsFor cfg st₁ rel entry.display)
      (fun st₁ => paced_makeDirsFor st₁ rel entry.display)
      fun out => ⟨by unfold Extracted.count; dsimp only; omega, rfl⟩
  case h_2 => exact file
  case h_3 => exact file
  case h_4 =>
    have linked (work : State → Outcome) (grown : ∀ st₁, Grown rel st₁ (work st₁).1)
        (paced : ∀ st₁, Paced cfg st₁ (work st₁).1) :=
      bounded_claimed bounded room shallow entry.display
        (fun out => { out with symlinks := out.symlinks + 1 }) grown paced
        fun out => ⟨by unfold Extracted.count; dsimp only; omega, rfl⟩
    have stopped (e : ExtractError) := linked (fun st₁ => (st₁, some e))
      (fun st₁ => .same rfl rfl rfl) fun st₁ => .same rfl
    split
    · exact stopped _
    · exact stopped _
    · rename_i target _
      exact linked _ (fun st₁ => (grown_writeSymlink cfg st₁ rel target entry.display).1)
        fun st₁ => paced_writeSymlink st₁ rel target entry.display
  all_goals exact bounded.refused _

theorem checkPath_shallow {limits : Limits} {out : Path} {path : RawPath} {rel : Path}
    (checked : State.checkPath limits out path = .ok (some rel))
    (shallow : out.length ≤ limits.maxPathDepth) : rel.length ≤ limits.maxPathDepth := by
  fun_induction State.checkPath limits out path with
  | case1 out =>
    split at checked
    · cases checked
    · obtain rfl := Option.some.inj (Except.ok.inj checked)
      exact shallow
  | case2 out rest ih => exact ih checked shallow
  | case10 out name rest short clean plain within ih =>
    refine ih checked ?_
    rw [List.length_append]
    exact Nat.not_lt.mp within
  | _ => cases checked

/-- **One entry keeps the bounds, accepted or refused midway.** -/
theorem bounded_entry (bounded : Bounded cfg (st, none)) (entry : Entry) :
    Bounded cfg (st.entry cfg entry) := by
  unfold State.entry
  dsimp only
  split
  · exact bounded
  · split
    · exact bounded.refused _
    · rename_i room
      split
      · exact bounded.refused _
      · split
        · exact bounded.refused _
        · split
          · exact bounded.refused _
          · exact bounded
          · rename_i checked
            split
            · exact bounded.refused _
            · exact bounded_place bounded (Nat.not_le.mp room) entry _
                (checkPath_shallow checked (Nat.zero_le _))

theorem bounded_entries (bounded : Bounded cfg (st, none))
    (archive : List (Except ExtractError Entry)) : Bounded cfg (st.entries cfg archive) := by
  induction archive generalizing st with
  | nil => exact bounded
  | cons item archive ih =>
    cases item with
    | error e => exact bounded.refused e
    | ok entry =>
      show Bounded cfg ((st.entry cfg entry).andThen fun st => st.entries cfg archive)
      have first := bounded_entry bounded entry
      rcases done : st.entry cfg entry with ⟨st', _ | e⟩
      · rw [done] at first
        exact ih first
      · rw [done] at first
        exact first

end Bounded

/-! ### The size of a file -/

/-- Every file of the later file system is within the cap, or held the same bytes before. -/
def Slim (cap : ℕ) (fs fs' : Fs) : Prop :=
  ∀ path bytes mode, fs'.lookup path = some (.file bytes mode) →
    bytes.length ≤ cap ∨ ∃ mode', fs.lookup path = some (.file bytes mode')

namespace Slim

variable {cap : ℕ} {fs fs' fs'' : Fs}

theorem refl (cap : ℕ) (fs : Fs) : Slim cap fs fs :=
  fun _ _ mode found => .inr ⟨mode, found⟩

theorem trans (first : Slim cap fs fs') (second : Slim cap fs' fs'') : Slim cap fs fs'' := by
  intro path bytes mode found
  rcases second path bytes mode found with within | ⟨mode', before⟩
  · exact .inl within
  · exact first path bytes mode' before

theorem created {place : Path} {node : Node}
    (lookup : ∀ path, fs'.lookup path = if path = place then some node else fs.lookup path)
    (empty : ∀ bytes mode, node = .file bytes mode → bytes = []) : Slim cap fs fs' := by
  intro path bytes mode found
  rw [lookup] at found
  split at found
  · rw [empty bytes mode (Option.some.inj found)]
    exact .inl (Nat.zero_le _)
  · exact .inr ⟨mode, found⟩

/-- A file rewritten to bytes within the cap, or to the bytes it had. -/
theorem rewritten {place : Path} {f : List UInt8 → ℕ → List UInt8 × ℕ}
    (within : ∀ bytes mode, fs.lookup place = some (.file bytes mode) →
      (f bytes mode).1.length ≤ cap ∨ (f bytes mode).1 = bytes) :
    Slim cap fs (fs.modifyFile place f) := by
  intro path bytes mode found
  rw [Fs.lookup_modifyFile] at found
  split at found
  · rename_i same
    subst same
    obtain ⟨node, here, changed⟩ := Option.map_eq_some_iff.mp found
    cases node with
    | file old was =>
      cases changed
      rcases within old was here with small | kept
      · exact .inl small
      · rw [kept]
        exact .inr ⟨was, here⟩
    | dir => cases changed
    | symlink target => cases changed
  · exact .inr ⟨mode, found⟩

end Slim

section Slim

variable {cfg : Setting} {st st' : State}

theorem create_lookup {rel place : Path} {node : Node}
    (created : st.create cfg rel node = (st', some place)) (path : Path) :
    st'.fs.lookup path = if path = place then some node else st.fs.lookup path := by
  unfold State.create at created
  dsimp only at created
  split at created
  · cases created
  · split at created
    · cases created
    · rename_i fs at' called
      cases created
      unfold Fs.createAt at called
      split at called
      · obtain ⟨fs', made, pair⟩ := Option.map_eq_some_iff.mp called
        cases pair
        exact (Fs.create_eq_some made).2.2 path
      · cases called

theorem slim_makeDirs {done rest : Path} (made : st.makeDirs cfg done rest = (st', none)) :
    Slim cfg.limits.maxFileBytes st.fs st'.fs := by
  induction rest generalizing st done with
  | nil =>
    cases made
    exact .refl _ _
  | cons c rest ih =>
    unfold State.makeDirs at made
    split at made
    · exact ih made
    · split at made
      · rename_i created
        have rest := ih made
        refine Slim.trans (.created (create_lookup created) fun _ _ impossible => ?_) rest
        cases impossible
      · cases made

theorem slim_makeDirsFor {rel : Path} {display : String}
    (made : st.makeDirsFor cfg rel display = (st', none)) :
    Slim cfg.limits.maxFileBytes st.fs st'.fs := by
  unfold State.makeDirsFor at made
  split at made
  · rename_i ended
    cases made
    exact slim_makeDirs ended
  · cases made

theorem slim_makeParent {rel : Path} {display : String}
    (made : st.makeParent cfg rel display = (st', none)) :
    Slim cfg.limits.maxFileBytes st.fs st'.fs := by
  unfold State.makeParent at made
  split at made
  · cases made
    exact .refl _ _
  · exact slim_makeDirsFor made

/-- What is copied into an empty file and accepted is within the cap. -/
theorem slim_copyData {entry : Entry} {place : Path} {mode : ℕ}
    (empty : st.fs.lookup place = some (.file [] mode))
    (copied : st.copyData cfg entry place = (st', none)) :
    Slim cfg.limits.maxFileBytes st.fs st'.fs := by
  unfold State.copyData at copied
  dsimp only at copied
  split at copied
  · cases copied
  · split at copied
    · cases copied
    · split at copied
      · cases copied
      · rename_i small
        split at copied
        · cases copied
        · cases copied
          refine Slim.rewritten fun bytes mode' here => .inl ?_
          rw [empty] at here
          cases here
          exact Nat.not_lt.mp small

theorem slim_setMode {rel : Path} {mode : ℕ} (set : st.setMode cfg rel mode = (st', none)) :
    Slim cfg.limits.maxFileBytes st.fs st'.fs := by
  unfold State.setMode at set
  dsimp only at set
  split at set
  · cases set
  · split at set
    · cases set
    · rename_i changed
      obtain ⟨path, -, rfl⟩ := Option.map_eq_some_iff.mp changed
      cases set
      exact Slim.rewritten fun _ _ _ => .inr rfl

theorem slim_writeFile {entry : Entry} {rel : Path} {mode : ℕ}
    (written : st.writeFile cfg entry rel mode = (st', none)) :
    Slim cfg.limits.maxFileBytes st.fs st'.fs := by
  unfold State.writeFile at written
  split at written
  · cases written
  · obtain ⟨st₁, made, written⟩ := andThen_eq_none written
    split at written
    · cases written
    · rename_i st₂ place created
      obtain ⟨st₃, copied, set⟩ := andThen_eq_none written
      have lookup := create_lookup created
      have opened : Slim cfg.limits.maxFileBytes st₁.fs st₂.fs :=
        .created lookup fun _ _ same => (Node.file.inj same).1.symm
      exact (slim_makeParent made).trans (opened.trans
        ((slim_copyData (by rw [lookup, if_pos rfl]) copied).trans (slim_setMode set)))

theorem slim_writeSymlink {rel : Path} {target : RawPath} {display : String}
    (written : st.writeSymlink cfg rel target display = (st', none)) :
    Slim cfg.limits.maxFileBytes st.fs st'.fs := by
  unfold State.writeSymlink at written
  split at written
  · cases written
  · split at written
    · cases written
    · obtain ⟨st₁, made, written⟩ := andThen_eq_none written
      split at written
      · cases written
      · rename_i linked
        cases written
        unfold State.symlink at linked
        split at linked
        · cases linked
        · have lookup := create_lookup linked
          refine (slim_makeParent made).trans (.created lookup ?_)
          intro _ _ impossible
          cases impossible

theorem slim_claim {rel : Path} {display : String}
    (claimed : st.claim cfg rel display = (st', none)) : st'.fs = st.fs := by
  unfold State.claim at claimed
  dsimp only at claimed
  split at claimed
  · cases claimed
    rfl
  · cases claimed

theorem slim_place {entry : Entry} {mode : ℕ} {rel : Path}
    (placed : st.place cfg entry mode rel = (st', none)) :
    Slim cfg.limits.maxFileBytes st.fs st'.fs := by
  unfold State.place at placed
  dsimp only at placed
  split at placed
  case h_1 =>
    obtain ⟨st₁, claimed, rest⟩ := andThen_eq_none placed
    obtain ⟨st₂, made, counted⟩ := andThen_eq_none rest
    cases counted
    have made := slim_makeDirsFor made
    rw [slim_claim claimed] at made
    exact made
  case h_4 =>
    obtain ⟨st₁, claimed, rest⟩ := andThen_eq_none placed
    split at rest
    · cases rest
    · cases rest
    · obtain ⟨st₂, written, counted⟩ := andThen_eq_none rest
      cases counted
      have written := slim_writeSymlink written
      rw [slim_claim claimed] at written
      exact written
  case h_2 | h_3 =>
    obtain ⟨st₁, claimed, rest⟩ := andThen_eq_none placed
    obtain ⟨st₂, written, counted⟩ := andThen_eq_none rest
    cases counted
    have written := slim_writeFile written
    rw [slim_claim claimed] at written
    exact written
  all_goals cases placed

theorem slim_entries {archive : List (Except ExtractError Entry)}
    (accepted : st.entries cfg archive = (st', none)) :
    Slim cfg.limits.maxFileBytes st.fs st'.fs := by
  induction archive generalizing st with
  | nil =>
    cases accepted
    exact .refl _ _
  | cons item archive ih =>
    cases item with
    | error e => cases accepted
    | ok entry =>
      obtain ⟨st₁, first, rest⟩ := andThen_eq_none (show (st.entry cfg entry).andThen
        (fun st => st.entries cfg archive) = (st', none) from accepted)
      refine Slim.trans ?_ (ih rest)
      rcases entry_cases first with ⟨-, rfl⟩ | ⟨rel, -, -, placed⟩
      · exact .refl _ _
      · exact slim_place placed

end Slim

/-! ### The bounds -/

/-- The bounds of one extraction, at the moment it has come to. -/
structure Affordable (cfg : Setting) (fs : Fs) (trouble : List Bool)
    (archive : List (Except ExtractError Entry)) : Prop where
  entries : (extractInto cfg fs trouble archive).1.placed.length ≤ cfg.limits.maxEntries
  objects : (extractInto cfg fs trouble archive).1.made.length ≤
    cfg.limits.maxEntries * cfg.limits.maxPathDepth
  bytes : (extractInto cfg fs trouble archive).1.out.bytes ≤ cfg.limits.maxTotalBytes
  files : ∀ front, front <+: archive → (extractInto cfg fs trouble front).2 = none →
    ∀ m ∈ (extractInto cfg fs trouble front).1.made, ∀ bytes mode,
      (extractInto cfg fs trouble archive).1.fs.lookup m.place = some (.file bytes mode) →
      bytes.length ≤ cfg.limits.maxFileBytes
  /-- The room left is no negative number (`bytes`), and one byte more fits the integer unless both
  caps are the largest one. -/
  room : cfg.limits.maxFileBytes < 2 ^ 64 - 1 ∨ cfg.limits.maxTotalBytes < 2 ^ 64 - 1 →
    min cfg.limits.maxFileBytes
      (cfg.limits.maxTotalBytes - (extractInto cfg fs trouble archive).1.out.bytes) + 1 < 2 ^ 64
  handed : ∀ {R} (source : R → ℕ → R × Except String (List UInt8)) (inner : R)
    (maxArchiveBytes : ℕ) (lengths : List ℕ),
    (Capped.handed source { inner, remaining := maxArchiveBytes } lengths).length ≤ maxArchiveBytes

theorem bounded_extractInto (cfg : Setting) (fs : Fs) (trouble : List Bool)
    (archive : List (Except ExtractError Entry)) :
    Bounded cfg (extractInto cfg fs trouble archive) := by
  have start : Bounded cfg ({ fs, trouble }, none) := by
    constructor <;> simp
  unfold extractInto
  dsimp only
  split
  · exact start.refused _
  · exact start.refused _
  · exact bounded_entries start archive

/-- The paths at which one entry makes objects. -/
def above (rel : Path) : List Path :=
  (List.range rel.length).map fun n => rel.take (n + 1)

theorem mem_above {rel q : Path} (some' : q ≠ []) (pre : q <+: rel) : q ∈ above rel := by
  have length := List.length_pos_iff.mpr some'
  refine List.mem_map.mpr ⟨q.length - 1, List.mem_range.mpr ?_, ?_⟩
  · have := pre.length_le
    omega
  · rw [Nat.sub_add_cancel length]
    exact (List.prefix_iff_eq_take.mp pre).symm

/-- Objects are made at claimed paths and above them, at each path once. -/
theorem made_le {cfg : Setting} {before : Fs} {st : State} (contained : Contained cfg before st)
    (below : ∀ m ∈ st.made, ∃ rel ∈ st.placed, m.asked <+: rel) {depth : ℕ}
    (shallow : ∀ rel ∈ st.placed, rel.length ≤ depth) :
    st.made.length ≤ st.placed.length * depth := by
  have among : st.made.map Made.asked ⊆ st.placed.flatMap above := by
    intro q member
    obtain ⟨m, known, rfl⟩ := List.mem_map.mp member
    obtain ⟨rel, claimed, pre⟩ := below m known
    exact List.mem_flatMap.mpr ⟨rel, claimed, mem_above (contained.made m known).1 pre⟩
  calc st.made.length = (st.made.map Made.asked).length := (List.length_map _).symm
    _ ≤ (st.placed.flatMap above).length := (List.subperm_of_subset contained.once among).length_le
    _ = (st.placed.map fun rel => (above rel).length).sum := List.length_flatMap
    _ ≤ (st.placed.map fun rel => (above rel).length).length • depth := by
      refine List.sum_le_card_nsmul _ _ fun n member => ?_
      obtain ⟨rel, claimed, rfl⟩ := List.mem_map.mp member
      rw [above, List.length_map, List.length_range]
      exact shallow rel claimed
    _ = st.placed.length * depth := by rw [List.length_map, nsmul_eq_mul, Nat.cast_id]

theorem contained_extractInto (cfg : Setting) (fs : Fs) (trouble : List Bool)
    (archive : List (Except ExtractError Entry)) :
    Contained cfg fs (extractInto cfg fs trouble archive).1 := by
  have start := contained_start cfg fs trouble
  unfold extractInto
  dsimp only
  split
  · exact start
  · exact start
  · exact (safe_entries start archive).contained

/-- What was made by the entries accepted so far holds no file over the cap, then or later. -/
theorem files_within (cfg : Setting) (fs : Fs) (trouble : List Bool)
    (front back : List (Except ExtractError Entry))
    (accepted : (extractInto cfg fs trouble front).2 = none) {m : Made}
    (member : m ∈ (extractInto cfg fs trouble front).1.made) {bytes : List UInt8} {mode : ℕ}
    (found : (extractInto cfg fs trouble (front ++ back)).1.fs.lookup m.place =
      some (.file bytes mode)) : bytes.length ≤ cfg.limits.maxFileBytes := by
  have contained := contained_extractInto cfg fs trouble front
  obtain ⟨-, -, absent, is, -⟩ := contained.made m member
  have slim : Slim cfg.limits.maxFileBytes fs (extractInto cfg fs trouble front).1.fs ∧
      Grows (extractInto cfg fs trouble front).1.fs
        (extractInto cfg fs trouble (front ++ back)).1.fs := by
    revert accepted contained
    unfold extractInto
    dsimp only
    split
    · intro accepted
      cases accepted
    · intro accepted
      cases accepted
    · rw [entries_append]
      rcases ran : State.entries cfg { fs := fs, trouble := trouble } front with ⟨st, _ | e⟩
      · intro _ contained
        exact ⟨slim_entries ran, (safe_entries contained back).grows⟩
      · intro accepted
        cases accepted
  obtain ⟨node, here⟩ := Option.ne_none_iff_exists'.mp is
  rw [slim.2 _ _ here] at found
  cases found
  rcases slim.1 _ _ _ here with within | ⟨_, before⟩
  · exact within
  · rw [absent] at before
    cases before

/-- **What one extraction can cost.** At every moment of it: no more entries claimed than the cap
and no more objects made than that many times the depth of a path, no more bytes copied than the
cap, no accepted file over its cap, and no more bytes handed to the parser than the archive's. -/
theorem extraction_bounded (cfg : Setting) (fs : Fs) (trouble : List Bool)
    (archive : List (Except ExtractError Entry)) : Affordable cfg fs trouble archive := by
  have bounded := bounded_extractInto cfg fs trouble archive
  refine ⟨bounded.entries, ?_, bounded.bytes, ?_, fun _ => by omega, ?_⟩
  · exact (made_le (contained_extractInto cfg fs trouble archive) bounded.below
      bounded.shallow).trans (Nat.mul_le_mul_right _ bounded.entries)
  · rintro front ⟨back, rfl⟩ accepted m member bytes mode found
    exact files_within cfg fs trouble front back accepted member found
  · exact fun source inner cap lengths => Capped.handed_le source _ lengths

/-- One file, two directories deep. -/
def deepFile : List (Except ExtractError Entry) :=
  [.ok {
    kind := .regular
    display := "a/b/c"
    path := some [.normal (.text "a"), .normal (.text "b"), .normal (.text "c")] }]

/-- The directories above an entry are made and not counted: one entry allowed, three objects. -/
theorem implicit_dirs_uncounted : ¬ ∀ cfg fs trouble archive,
    (extractInto cfg fs trouble archive).1.made.length ≤ cfg.limits.maxEntries := by
  intro within
  have three := within { bareSetting with limits := { maxEntries := 1 } } bareHost [] deepFile
  revert three
  decide +kernel

end HullCi.Fetch
