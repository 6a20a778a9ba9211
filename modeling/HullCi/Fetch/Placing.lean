/-
**Placing one entry.**

What an entry asks for can be read off the entry alone. Whether it gets it is a question of what is
at its path and above, of the claims, and of the bytes so far.

* `copyData_exact` — a file's bytes are copied exactly when it is whole and within both limits.
* `writeFile_exact`, `writeSymlink_exact` — when an object is written, and what is there then.
* `place_exact` — an entry is placed exactly when it asks for an object there is room for.
-/

import HullCi.Fetch.Calls
import HullCi.Fetch.Collisions

namespace HullCi.Fetch

open HullCi.Base

variable {cfg : Setting} {st : State}

/-! ### What one entry asks for -/

/-- How much of a file is read at most: one byte past what is allowed, in 64 bits. -/
def Limits.stop (limits : Limits) : ℕ :=
  (min limits.maxFileBytes limits.maxTotalBytes + 1) % 2 ^ 64

/-- What is written of a file. -/
def Entry.kept (limits : Limits) (e : Entry) : List UInt8 :=
  e.data.take limits.stop

def fileModeOf (mode : ℕ) : ℕ :=
  if mode &&& 0o111 ≠ 0 then 0o755 else 0o644

/-- What can be seen of a file on its own. -/
structure Entry.Whole (limits : Limits) (e : Entry) : Prop where
  declared : e.size.getD 0 ≤ limits.maxFileBytes
  short : (e.kept limits).length ≤ limits.maxFileBytes
  torn : e.data.length < limits.stop → e.torn = none

/-- What can be seen of a link on its own. -/
structure Inside (rel : Path) (target : RawPath) : Prop where
  named : target ≠ []
  relative : target.head? ≠ some .rootDir
  inside : State.checkTarget rel.dropLast target = none

/-- The limits are numbers of 64 bits. -/
structure Limits.Fit (limits : Limits) : Prop where
  file : limits.maxFileBytes < 2 ^ 64
  total : limits.maxTotalBytes < 2 ^ 64

/-- The bytes so far are within their limit; a limit that stops every file at its start leaves
none. -/
structure Paid (cfg : Setting) (st : State) : Prop where
  within : st.out.bytes ≤ cfg.limits.maxTotalBytes
  stopped : cfg.limits.stop = 0 → st.out.bytes = 0

theorem Paid.same {st' : State} (paid : Paid cfg st) (out : st'.out = st.out) : Paid cfg st' := by
  constructor <;> rw [out]
  · exact paid.within
  · exact paid.stopped

theorem read_kept (fit : cfg.limits.Fit) (paid : Paid cfg st) {data : List UInt8} :
    let room := min cfg.limits.maxFileBytes (cfg.limits.maxTotalBytes - st.out.bytes)
    let stop := (room + 1) % 2 ^ 64
    (data.take cfg.limits.stop).length ≤ cfg.limits.maxFileBytes ∧
        st.out.bytes + (data.take cfg.limits.stop).length ≤ cfg.limits.maxTotalBytes ↔
      (data.take stop).length ≤ cfg.limits.maxFileBytes ∧ (data.take stop).length ≤ room := by
  have file := fit.file
  have total := fit.total
  have within := paid.within
  have stopped := paid.stopped
  unfold Limits.stop at stopped ⊢
  dsimp only
  rw [List.length_take, List.length_take]
  omega

theorem take_kept (fit : cfg.limits.Fit) (paid : Paid cfg st) {data : List UInt8} :
    let room := min cfg.limits.maxFileBytes (cfg.limits.maxTotalBytes - st.out.bytes)
    let stop := (room + 1) % 2 ^ 64
    (data.take stop).length ≤ room →
      data.take stop = data.take cfg.limits.stop ∧
        (data.length < stop ↔ data.length < cfg.limits.stop) := by
  have file := fit.file
  have total := fit.total
  have within := paid.within
  have stopped := paid.stopped
  unfold Limits.stop at stopped ⊢
  dsimp only
  rw [List.length_take]
  intro small
  by_cases none : (min cfg.limits.maxFileBytes cfg.limits.maxTotalBytes + 1) % 2 ^ 64 = 0
  · have same : (min cfg.limits.maxFileBytes (cfg.limits.maxTotalBytes - st.out.bytes) + 1) % 2 ^ 64
        = 0 := by omega
    rw [none, same]
    exact ⟨rfl, Iff.rfl⟩
  · refine ⟨?_, by omega⟩
    rw [List.take_of_length_le (by omega), List.take_of_length_le (by omega)]

/-- The copy ends well exactly when the file is whole and there is room for it. -/
theorem copyData_exact (calm : st.trouble = []) (fit : cfg.limits.Fit) (paid : Paid cfg st)
    {e : Entry} (place : Path) :
    ((e.kept cfg.limits).length ≤ cfg.limits.maxFileBytes →
      (e.data.length < cfg.limits.stop → e.torn = none) →
      st.out.bytes + (e.kept cfg.limits).length ≤ cfg.limits.maxTotalBytes →
        st.copyData cfg e place = ({ st with
          trouble := []
          fs := st.fs.write place (e.kept cfg.limits)
          out := { st.out with bytes := st.out.bytes + (e.kept cfg.limits).length } }, none)) ∧
    ((st.copyData cfg e place).2 = none →
      (e.kept cfg.limits).length ≤ cfg.limits.maxFileBytes ∧
        (e.data.length < cfg.limits.stop → e.torn = none) ∧
        st.out.bytes + (e.kept cfg.limits).length ≤ cfg.limits.maxTotalBytes) := by
  unfold Entry.kept State.copyData
  simp only [calm, List.headD_nil, List.tail_nil, Bool.false_eq_true, if_false]
  constructor
  · intro short torn room
    obtain ⟨small, fits⟩ := (read_kept fit paid).mp ⟨short, room⟩
    obtain ⟨same, ends⟩ := take_kept fit paid fits
    have whole : (if e.data.length < (min cfg.limits.maxFileBytes (cfg.limits.maxTotalBytes -
        st.out.bytes) + 1) % 2 ^ 64 then e.torn else none) = none := by
      split
      · rename_i reads
        exact torn (ends.mp reads)
      · rfl
    rw [whole]
    dsimp only
    rw [if_neg (Nat.not_lt_of_le small), if_neg (Nat.not_lt_of_le fits), same]
  · intro accepted
    split at accepted
    · cases accepted
    · rename_i whole
      split at accepted
      · cases accepted
      · rename_i small
        split at accepted
        · cases accepted
        · rename_i fits
          have fits := Nat.le_of_not_lt fits
          obtain ⟨short, room⟩ := (read_kept fit paid).mpr ⟨Nat.le_of_not_lt small, fits⟩
          refine ⟨short, fun reads => ?_, room⟩
          rwa [if_pos ((take_kept fit paid fits).2.mpr reads)] at whole

/-! ### Placing one object -/

theorem prefix_dropLast {q rel : Path} (other : q ≠ rel) (pre : q <+: rel) :
    q <+: rel.dropLast := by
  rcases List.eq_nil_or_concat' rel with rfl | ⟨front, c, rfl⟩
  · exact pre
  · rw [List.dropLast_concat]
    exact (List.prefix_concat_iff.mp pre).resolve_left other

/-- An object may come to be: nothing is in its way, and at its path is nothing, or a directory for
a directory. -/
def Room (cfg : Setting) (st : State) (rel : Path) (node : Node) : Prop :=
  ∀ q, q <+: rel → (st.fs.lookup (cfg.dest ++ q) = none ∧ Near cfg q) ∨
    st.fs.lookup (cfg.dest ++ q) = some .dir ∧ (q = rel → node = .dir)

theorem room_iff {rel : Path} {node : Node} (other : node ≠ .dir) :
    Room cfg st rel node ↔
      Passable cfg st rel.dropLast ∧ st.fs.lookup (cfg.dest ++ rel) = none ∧ Near cfg rel := by
  constructor
  · intro room
    refine ⟨fun q pre => ?_, ?_⟩
    · exact (room q (pre.trans (List.dropLast_prefix rel))).imp_right And.left
    · rcases room rel (List.prefix_refl _) with free | taken
      · exact free
      · exact absurd (taken.2 rfl) other
  · rintro ⟨passable, free⟩ q pre
    by_cases same : q = rel
    · exact .inl (same ▸ free)
    · exact (passable q (prefix_dropLast same pre)).imp_right fun dir =>
        ⟨dir, fun here => absurd here same⟩

def Node.size : Node → ℕ
  | .file bytes _ => bytes.length
  | _ => 0

def Node.isLink : Node → Bool
  | .symlink _ => true
  | _ => false

/-- An object is placed, with the directories above it; a link is listed, a file's bytes counted. -/
structure Placed (cfg : Setting) (st : State) (rel : Path) (node : Node) (st' : State) : Prop where
  coherent : Coherent cfg st'
  lookup : ∀ q, st'.fs.lookup (cfg.dest ++ q) =
    if q = rel then some node
    else if q ≠ [] ∧ q <+: rel then some .dir else st.fs.lookup (cfg.dest ++ q)
  claimed : st'.claimed = st.claimed
  symlinks : st'.symlinks = if node.isLink then rel :: st.symlinks else st.symlinks
  out : st'.out = { st.out with bytes := st.out.bytes + node.size }


theorem placed_dir {rel : Path} {st' : State} (made : DirsMade cfg st rel st') (some' : rel ≠ []) :
    Placed cfg st rel .dir st' where
  coherent := made.coherent
  lookup q := by
    rw [made.lookup]
    by_cases here : q = rel
    · rw [if_pos here, if_pos ⟨here ▸ some', here ▸ List.prefix_refl _⟩]
    · rw [if_neg here]
  claimed := made.books.claimed
  symlinks := made.books.symlinks
  out := made.books.out

theorem room_dir {rel : Path} : Room cfg st rel .dir ↔ Passable cfg st rel := by
  unfold Room Passable
  simp

/-- An object that is no directory, created below its parent's directories. -/
theorem placed_create {rel : Path} {st₁ : State} (made : DirsMade cfg st rel.dropLast st₁)
    (some' : rel ≠ []) (near : Near cfg rel)
    (free : st.fs.lookup (cfg.dest ++ rel) = none) (node : Node) (other : node ≠ .dir) :
    ∃ st₂, st₁.create cfg rel node = (st₂, some (cfg.dest ++ rel)) ∧ SameBooks st st₂ ∧
      Coherent cfg st₂ ∧ Real cfg st₂ rel.dropLast ∧
      ∀ q, st₂.fs.lookup (cfg.dest ++ q) =
        if q = rel then some node
        else if q ≠ [] ∧ q <+: rel then some .dir else st.fs.lookup (cfg.dest ++ q) := by
  obtain ⟨parent, name, rfl⟩ : ∃ parent name, rel = parent ++ [name] :=
    ⟨rel.dropLast, rel.getLast some', (List.dropLast_append_getLast some').symm⟩
  unfold Near at near
  rw [List.dropLast_concat] at made near ⊢
  have real : Real cfg st₁ parent := fun q some' pre => by
    rw [made.lookup, if_pos ⟨some', pre⟩]
  have above : ∀ q, q ≠ parent ++ [name] →
      (q ≠ [] ∧ q <+: parent ↔ q ≠ [] ∧ q <+: parent ++ [name]) := fun q other => by
    rw [List.prefix_concat_iff]
    simp [other]
  have free' : st₁.fs.lookup (cfg.dest ++ (parent ++ [name])) = none := by
    rw [made.lookup, if_neg, free]
    rintro ⟨-, pre⟩
    have longer := pre.length_le
    rw [List.length_append, List.length_singleton] at longer
    omega
  obtain ⟨st₂, created, calm, dirs, books, lookup⟩ :=
    create_free made.coherent real near free' node
  have inDest : ∀ q, st₂.fs.lookup (cfg.dest ++ q) =
      if q = parent ++ [name] then some node else st₁.fs.lookup (cfg.dest ++ q) := by
    intro q
    rw [lookup]
    simp only [List.append_cancel_left_eq]
  refine ⟨st₂, created, made.books.trans books, ⟨calm, ?_, fun q => ?_⟩, fun q some' pre => ?_,
    fun q => ?_⟩
  · have top := inDest []
    rw [if_neg (by simp), List.append_nil] at top
    rw [top]
    exact made.coherent.root
  · rw [dirs, made.coherent.listed, inDest]
    by_cases here : q = parent ++ [name]
    · rw [if_pos here, here, free']
      simp [other]
    · rw [if_neg here]
  · rw [inDest]
    split
    · rename_i here
      have longer := pre.length_le
      rw [here, List.length_append, List.length_singleton] at longer
      omega
    · exact real q some' pre
  · rw [inDest]
    by_cases here : q = parent ++ [name]
    · rw [if_pos here, if_pos here]
    · rw [if_neg here, if_neg here, made.lookup]
      simp only [above q here]

/-- Where something is already, or beyond reach, nothing is created. -/
theorem refused_create {rel : Path} {st₁ : State} (made : DirsMade cfg st rel.dropLast st₁)
    (some' : rel ≠ []) (node : Node) (created : (st₁.create cfg rel node).2 ≠ none) :
    st.fs.lookup (cfg.dest ++ rel) = none ∧ Near cfg rel := by
  obtain ⟨parent, name, rfl⟩ : ∃ parent name, rel = parent ++ [name] :=
    ⟨rel.dropLast, rel.getLast some', (List.dropLast_append_getLast some').symm⟩
  unfold Near
  rw [List.dropLast_concat] at made ⊢
  have real : Real cfg st₁ parent := fun q some' pre => by
    rw [made.lookup, if_pos ⟨some', pre⟩]
  obtain ⟨near, free⟩ := create_needs made.coherent real created
  rw [made.lookup] at free
  split at free
  · cases free
  · exact ⟨free, near⟩

theorem setMode_exact (calm : st.trouble = []) {rel : Path} (some' : rel ≠ [])
    (near : Near cfg rel) (real : Real cfg st rel.dropLast)
    (file : st.fs.tree (cfg.dest ++ rel) = some .file) (mode : ℕ) :
    st.setMode cfg rel mode = ({ st with
      trouble := []
      fs := st.fs.modifyFile (cfg.dest ++ rel) fun bytes _ => (bytes, fileModeOf mode) },
      none) := by
  obtain ⟨parent, name, rfl⟩ : ∃ parent name, rel = parent ++ [name] :=
    ⟨rel.dropLast, rel.getLast some', (List.dropLast_append_getLast some').symm⟩
  unfold Near at near
  rw [List.dropLast_concat] at real near
  unfold State.setMode Fs.chmod
  simp only [calm, List.headD_nil, List.tail_nil, Bool.false_eq_true, if_false]
  rw [resolveFile_near real file near]
  rfl

/-- What a file just created holds after its bytes and its mode are written. -/
theorem lookup_written {fs : Fs} {place : Path} {mode : ℕ} (made : fs.lookup place =
    some (.file [] mode)) (bytes : List UInt8) (mode' : ℕ) (path : Path) :
    ((fs.write place bytes).modifyFile place fun bytes _ => (bytes, mode')).lookup path =
      if path = place then some (.file bytes mode') else fs.lookup path := by
  unfold Fs.write
  rw [Fs.lookup_modifyFile, Fs.lookup_modifyFile, Fs.lookup_modifyFile]
  split
  · rw [if_pos rfl, made]
    rfl
  · rfl

theorem lookup_write {fs : Fs} {place : Path} {mode : ℕ} (made : fs.lookup place =
    some (.file [] mode)) (bytes : List UInt8) (path : Path) :
    (fs.write place bytes).lookup path =
      if path = place then some (.file bytes mode) else fs.lookup path := by
  unfold Fs.write
  rw [Fs.lookup_modifyFile, made]
  rfl

/-- The file an entry leaves. -/
def Entry.file (limits : Limits) (e : Entry) (mode : ℕ) : Node :=
  .file (e.kept limits) (fileModeOf mode)

theorem writeFile_exact (coherent : Coherent cfg st) (fit : cfg.limits.Fit) (paid : Paid cfg st)
    {e : Entry} {rel : Path} (some' : rel ≠ []) (mode : ℕ) :
    (e.Whole cfg.limits → st.out.bytes + (e.kept cfg.limits).length ≤ cfg.limits.maxTotalBytes →
      Room cfg st rel (e.file cfg.limits mode) →
        ∃ st', st.writeFile cfg e rel mode = (st', none) ∧
          Placed cfg st rel (e.file cfg.limits mode) st') ∧
    ((st.writeFile cfg e rel mode).2 = none →
      e.Whole cfg.limits ∧
        st.out.bytes + (e.kept cfg.limits).length ≤ cfg.limits.maxTotalBytes ∧
        Room cfg st rel (e.file cfg.limits mode)) := by
  have other : e.file cfg.limits mode ≠ .dir := fun same => by cases same
  obtain ⟨parents, back⟩ := makeParent_exact coherent rel e.display
  rw [room_iff other]
  unfold State.writeFile
  constructor
  · rintro whole room ⟨passable, free, near⟩
    rw [if_neg (Nat.not_lt_of_le whole.declared)]
    obtain ⟨st₁, made, dirs⟩ := parents passable
    obtain ⟨st₂, created, books, coherent₂, real, lookup⟩ :=
      placed_create dirs some' near free (.file [] 0o644) fun same => by cases same
    have here : st₂.fs.lookup (cfg.dest ++ rel) = some (.file [] 0o644) := by
      rw [lookup, if_pos rfl]
    have paid₂ := paid.same books.out
    have copied := (copyData_exact coherent₂.calm fit paid₂ (e := e) (cfg.dest ++ rel)).1
      whole.short whole.torn (by rw [books.out]; exact room)
    have written := lookup_written here (e.kept cfg.limits) (fileModeOf mode)
    rw [made]
    dsimp only [Outcome.andThen]
    rw [created]
    dsimp only
    rw [copied]
    dsimp only
    rw [setMode_exact rfl some' near]
    · refine ⟨_, rfl, ⟨rfl, ?_, fun q => ?_⟩, fun q => ?_, books.claimed, books.symlinks, ?_⟩
      · dsimp only
        rw [written, if_neg (by simpa using some')]
        exact coherent₂.root
      · dsimp only
        rw [coherent₂.listed, written]
        simp only [List.append_cancel_left_eq]
        by_cases at' : q = rel
        · rw [if_pos at', at', here]
          simp
        · rw [if_neg at']
      · dsimp only
        rw [written]
        simp only [List.append_cancel_left_eq]
        rw [lookup]
        by_cases at' : q = rel
        · rw [if_pos at', if_pos at']
          rfl
        · rw [if_neg at', if_neg at', if_neg at']
      · dsimp only
        rw [books.out]
        rfl
    · intro q someQ pre
      show (st₂.fs.write (cfg.dest ++ rel) (e.kept cfg.limits)).lookup (cfg.dest ++ q) = _
      rw [lookup_write here, if_neg, real q someQ pre]
      intro same
      have longer := pre.length_le
      rw [List.append_cancel_left same, List.length_dropLast] at longer
      have := List.length_pos_iff.mpr some'
      omega
    · show ((st₂.fs.write (cfg.dest ++ rel) (e.kept cfg.limits)).lookup _).map Node.kind = _
      rw [lookup_write here, if_pos rfl]
      rfl
  · intro accepted
    split at accepted
    · cases accepted
    · rename_i declared
      obtain ⟨st₁, made, rest, -⟩ := andThen_eq_ok accepted
      have passable := back (by rw [made])
      obtain ⟨st', made', dirs⟩ := parents passable
      obtain rfl : st₁ = st' := (Prod.mk.inj (made.symm.trans made')).1
      cases created : st₁.create cfg rel (.file [] 0o644) with
      | mk st₂ place =>
        rw [created] at rest
        cases place with
        | none => cases rest
        | some place =>
          obtain ⟨free, near⟩ := refused_create dirs some' (.file [] 0o644)
            (by rw [created]; exact Option.some_ne_none _)
          obtain ⟨st₂', created', books, coherent₂, -⟩ :=
            placed_create dirs some' near free (.file [] 0o644) fun same => by cases same
          obtain rfl : st₂ = st₂' := (Prod.mk.inj (created.symm.trans created')).1
          obtain ⟨st₃, copied, -, -⟩ := andThen_eq_ok rest
          have paid₂ := paid.same books.out
          obtain ⟨short, torn, room⟩ := (copyData_exact coherent₂.calm fit paid₂ (e := e) place).2
            (by rw [copied])
          rw [books.out] at room
          exact ⟨⟨Nat.le_of_not_lt declared, short, torn⟩, room, passable, free, near⟩

/-- A link is placed exactly when it reads inside and there is room for it. -/
theorem writeSymlink_exact (coherent : Coherent cfg st) {rel : Path} (some' : rel ≠ [])
    (target : RawPath) (display : String) :
    (Inside rel target → Room cfg st rel (.symlink target) →
      ∃ st', st.writeSymlink cfg rel target display = (st', none) ∧
        Placed cfg st rel (.symlink target) st') ∧
    ((st.writeSymlink cfg rel target display).2 = none →
      Inside rel target ∧ Room cfg st rel (.symlink target)) := by
  have other : Node.symlink target ≠ .dir := fun same => by cases same
  obtain ⟨parents, back⟩ := makeParent_exact coherent rel display
  rw [room_iff other]
  unfold State.writeSymlink State.symlink
  constructor
  · rintro inside ⟨passable, free, near⟩
    obtain ⟨st₁, made, dirs⟩ := parents passable
    obtain ⟨st₂, created, books, coherent₂, -, lookup⟩ :=
      placed_create dirs some' near free (.symlink target) other
    rw [if_neg inside.relative, inside.inside]
    dsimp only
    rw [made]
    dsimp only [Outcome.andThen]
    rw [if_neg (by simpa using inside.named), created]
    refine ⟨_, rfl, ⟨coherent₂.calm, coherent₂.root, coherent₂.listed⟩, lookup, books.claimed, ?_,
      books.out⟩
    dsimp only
    rw [books.symlinks]
    rfl
  · intro accepted
    split at accepted
    · cases accepted
    · rename_i relative
      split at accepted
      · cases accepted
      · rename_i inside
        obtain ⟨st₁, made, rest, -⟩ := andThen_eq_ok accepted
        have passable := back (by rw [made])
        obtain ⟨st', made', dirs⟩ := parents passable
        obtain rfl : st₁ = st' := (Prod.mk.inj (made.symm.trans made')).1
        split at rest
        · cases rest
        · rename_i linked
          split at linked
          · cases linked
          · rename_i named
            have free := refused_create dirs some' (.symlink target)
              (by rw [linked]; exact Option.some_ne_none _)
            exact ⟨⟨by simpa using named, relative, inside⟩, passable, free⟩


/-- The object an entry asks for at its path. -/
inductive Yields (limits : Limits) (e : Entry) (rel : Path) : Node → Prop
  | dir (kind : e.kind = .directory) : Yields limits e rel .dir
  | file (kind : e.kind = .regular ∨ e.kind = .continuous) (whole : e.Whole limits) :
      Yields limits e rel (e.file limits (e.mode.getD 0o644))
  | link {target : RawPath} (kind : e.kind = .symlink) (named : e.linkName = some (some target))
      (inside : Inside rel target) : Yields limits e rel (.symlink target)

/-- The state after a claim that is granted. -/
def claimedBy (cfg : Setting) (st : State) (rel : Path) (display : String) : State :=
  { st with
    claimed := st.claimed.insert (cfg.nfc (lossy rel)) display
    placed := st.placed ++ [rel] }

theorem claim_exact (rel : Path) (display : String) :
    (st.claimed.lookup (cfg.nfc (lossy rel)) = none →
      st.claim cfg rel display = (claimedBy cfg st rel display, none)) ∧
    ((st.claim cfg rel display).2 = none → st.claimed.lookup (cfg.nfc (lossy rel)) = none) := by
  constructor
  · intro free
    unfold State.claim
    dsimp only
    rw [free]
    rfl
  · exact fun accepted => (claim_eq_ok accepted).1

/-- What goes on after a claim goes on from the claimed state. -/
theorem claim_then {rel : Path} {display : String} {next : State → Outcome}
    (accepted : ((st.claim cfg rel display).andThen next).2 = none) :
    st.claimed.lookup (cfg.nfc (lossy rel)) = none ∧
      (next (claimedBy cfg st rel display)).2 = none := by
  obtain ⟨claim, unclaimed⟩ := @claim_exact cfg st rel display
  obtain ⟨st₁, claimed, rest, -⟩ := andThen_eq_ok accepted
  have free := unclaimed (by rw [claimed])
  rw [claim free] at claimed
  obtain rfl := (Prod.mk.inj claimed).1
  exact ⟨free, rest⟩

/-- One object more of its kind. -/
def countOne (out : Extracted) : Node → Extracted
  | .dir => { out with dirs := out.dirs + 1 }
  | .file _ _ => { out with files := out.files + 1 }
  | .symlink _ => { out with symlinks := out.symlinks + 1 }

theorem coherent_claimed (coherent : Coherent cfg st) (rel : Path) (display : String) :
    Coherent cfg (claimedBy cfg st rel display) :=
  ⟨coherent.calm, coherent.root, coherent.listed⟩

/-- An entry is placed exactly when it asks for an object there is room for. -/
theorem place_exact (coherent : Coherent cfg st) (fit : cfg.limits.Fit) (paid : Paid cfg st)
    {e : Entry} {rel : Path} (some' : rel ≠ []) :
    (∀ node, Yields cfg.limits e rel node → st.claimed.lookup (cfg.nfc (lossy rel)) = none →
      st.out.bytes + node.size ≤ cfg.limits.maxTotalBytes → Room cfg st rel node →
        ∃ st', Placed cfg (claimedBy cfg st rel e.display) rel node st' ∧
          st.place cfg e (e.mode.getD 0o644) rel =
            ({ st' with out := countOne st'.out node }, none)) ∧
    ((st.place cfg e (e.mode.getD 0o644) rel).2 = none →
      ∃ node, Yields cfg.limits e rel node ∧ st.claimed.lookup (cfg.nfc (lossy rel)) = none ∧
        st.out.bytes + node.size ≤ cfg.limits.maxTotalBytes ∧ Room cfg st rel node) := by
  have coherent₁ := coherent_claimed coherent rel e.display
  have paid₁ : Paid cfg (claimedBy cfg st rel e.display) := ⟨paid.within, paid.stopped⟩
  have claim := (@claim_exact cfg st rel e.display).1
  obtain ⟨mkdirs, mkdirsBack⟩ := makeDirsFor_exact coherent₁ rel e.display
  obtain ⟨write, writeBack⟩ := writeFile_exact coherent₁ fit paid₁ (e := e) some'
    (e.mode.getD 0o644)
  constructor
  · intro node yields free room clear
    cases yields with
    | dir kind =>
      obtain ⟨st₂, made, dirs⟩ := mkdirs (room_dir.mp clear)
      refine ⟨st₂, placed_dir dirs some', ?_⟩
      unfold State.place
      rw [kind, claim free]
      dsimp only [Outcome.andThen]
      rw [made]
      rfl
    | file kind whole =>
      obtain ⟨st₂, written, placed⟩ := write whole room clear
      refine ⟨st₂, placed, ?_⟩
      unfold State.place
      rcases kind with kind | kind
      all_goals
        rw [kind, claim free]
        dsimp only [Outcome.andThen]
        rw [written]
        rfl
    | @link target kind named inside =>
      obtain ⟨st₂, linked, placed⟩ :=
        (writeSymlink_exact coherent₁ some' target e.display).1 inside clear
      refine ⟨st₂, placed, ?_⟩
      unfold State.place
      rw [kind, claim free]
      dsimp only [Outcome.andThen]
      rw [named]
      dsimp only
      rw [linked]
      rfl
  · have file : ∀ next : State → Outcome, (e.kind = .regular ∨ e.kind = .continuous) →
        ((st.claim cfg rel e.display).andThen fun st =>
          (st.writeFile cfg e rel (e.mode.getD 0o644)).andThen next).2 = none →
        ∃ node, Yields cfg.limits e rel node ∧ st.claimed.lookup (cfg.nfc (lossy rel)) = none ∧
          st.out.bytes + node.size ≤ cfg.limits.maxTotalBytes ∧ Room cfg st rel node := by
      intro next kind accepted
      obtain ⟨free, rest⟩ := claim_then accepted
      obtain ⟨st₂, written, -, -⟩ := andThen_eq_ok rest
      obtain ⟨whole, room, clear⟩ := writeBack (by rw [written])
      exact ⟨_, .file kind whole, free, room, clear⟩
    intro accepted
    unfold State.place at accepted
    cases kind : e.kind <;> simp only [kind] at accepted
    case regular => exact file _ (.inl kind) accepted
    case continuous => exact file _ (.inr kind) accepted
    case directory =>
      obtain ⟨free, rest⟩ := claim_then accepted
      obtain ⟨st₂, made, -, -⟩ := andThen_eq_ok rest
      exact ⟨.dir, .dir kind, free, paid.within, room_dir.mpr (mkdirsBack (by rw [made]))⟩
    case symlink =>
      obtain ⟨free, rest⟩ := claim_then accepted
      cases named : e.linkName with
      | none =>
        rw [named] at rest
        cases rest
      | some target =>
        cases target with
        | none =>
          rw [named] at rest
          cases rest
        | some target =>
          rw [named] at rest
          obtain ⟨st₂, linked, -, -⟩ := andThen_eq_ok rest
          obtain ⟨inside, clear⟩ := (writeSymlink_exact coherent₁ some' target e.display).2
            (by rw [linked])
          exact ⟨_, .link kind named inside, free, paid.within, clear⟩
    all_goals cases accepted


end HullCi.Fetch
