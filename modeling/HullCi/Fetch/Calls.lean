/-
**The calls of an extraction on a host that fails none.**

Below real directories a call resolves its path as it reads, given the kernel's patience, and
creates an object exactly where there is none.

* `create_free`, `create_needs` — when an object is created, and what changes.
* `makeDirs_exact` — a path's directories are made exactly when nothing else is in the way.
-/

import HullCi.Fetch.Contained

namespace HullCi.Fetch

open HullCi.Base

/-! ### Resolving below real directories -/

/-- Below real directories a path of names is resolved, given the patience. -/
theorem walk_near {tree : Path → Option (Kind OsStr)} {start : Path} (path : Path)
    (dirs : ∀ q, q ≠ [] → q <+: path → tree (start ++ q) = some .dir) {patience : ℕ}
    (near : path.length ≤ patience) (tail : RawPath) :
    Cursor.walk tree patience ⟨start, named path ++ tail⟩ =
      Cursor.walk tree (patience - path.length) ⟨start ++ path, tail⟩ := by
  induction path generalizing start patience with
  | nil => simp [named]
  | cons name path ih =>
    obtain ⟨patience, rfl⟩ : ∃ p, patience = p + 1 :=
      ⟨patience - 1, by rw [List.length_cons] at near; omega⟩
    have first : tree (start ++ [name]) = some .dir := dirs [name] (by simp) ⟨path, rfl⟩
    have step : Cursor.walk tree (patience + 1) ⟨start, named (name :: path) ++ tail⟩
        = Cursor.walk tree patience ⟨start ++ [name], named path ++ tail⟩ := by
      simp [Cursor.walk, Cursor.next, named, first]
    rw [step, ih (fun q some' pre => by
      have deeper := dirs (name :: q) (by simp) ((List.prefix_cons_inj name).mpr pre)
      simpa using deeper) (Nat.le_of_succ_le_succ near)]
    simp

theorem walk_far {tree : Path → Option (Kind OsStr)} {start : Path} (path : Path)
    (dirs : ∀ q, q ≠ [] → q <+: path → tree (start ++ q) = some .dir) {patience : ℕ}
    (far : patience < path.length) :
    (Cursor.walk tree patience ⟨start, named path⟩).todo ≠ [] := by
  induction path generalizing start patience with
  | nil => cases far
  | cons name path ih =>
    cases patience with
    | zero => simp [Cursor.walk, named]
    | succ patience =>
      have first : tree (start ++ [name]) = some .dir := dirs [name] (by simp) ⟨path, rfl⟩
      have step : Cursor.walk tree (patience + 1) ⟨start, named (name :: path)⟩
          = Cursor.walk tree patience ⟨start ++ [name], named path⟩ := by
        simp [Cursor.walk, Cursor.next, named, first]
      rw [step]
      exact ih (fun q some' pre => by
        have deeper := dirs (name :: q) (by simp) ((List.prefix_cons_inj name).mpr pre)
        simpa using deeper) (Nat.lt_of_succ_lt_succ far)

variable {cfg : Setting} {st : State}

/-- The directories above a path are real. -/
def Real (cfg : Setting) (st : State) (path : Path) : Prop :=
  ∀ q, q ≠ [] → q <+: path → st.fs.lookup (cfg.dest ++ q) = some .dir

theorem Real.tree {path : Path} (real : Real cfg st path) :
    ∀ q, q ≠ [] → q <+: path → st.fs.tree (cfg.dest ++ q) = some .dir := by
  intro q some' pre
  unfold Fs.tree
  rw [real q some' pre]
  rfl

theorem Real.snoc {path : Path} {c : OsStr} (real : Real cfg st path)
    (here : st.fs.lookup (cfg.dest ++ (path ++ [c])) = some .dir) : Real cfg st (path ++ [c]) := by
  intro q some' pre
  rcases List.prefix_concat_iff.mp pre with rfl | shorter
  · exact here
  · exact real q some' shorter

theorem parentDir_near {parent : Path} {name : OsStr} (real : Real cfg st parent)
    (near : parent.length ≤ cfg.patience) :
    st.fs.parentDir cfg.patience cfg.dest (parent ++ [name]) = some (cfg.dest ++ parent) := by
  unfold Fs.parentDir resolveDir
  have led := walk_near parent real.tree near []
  rw [List.append_nil] at led
  have done : ∀ left, Cursor.walk st.fs.tree left ⟨cfg.dest ++ parent, []⟩ =
      ⟨cfg.dest ++ parent, []⟩ := fun left => by cases left <;> rfl
  rw [List.dropLast_concat, led, done]

theorem parentDir_far {parent : Path} {name : OsStr} (real : Real cfg st parent)
    (far : cfg.patience < parent.length) :
    st.fs.parentDir cfg.patience cfg.dest (parent ++ [name]) = none := by
  have stuck := walk_far parent real.tree far
  unfold Fs.parentDir resolveDir
  rw [List.dropLast_concat]
  split
  · rename_i done
    rw [done] at stuck
    exact absurd rfl stuck
  · rfl

theorem resolveFile_near {parent : Path} {name : OsStr} (real : Real cfg st parent)
    (file : st.fs.tree (cfg.dest ++ (parent ++ [name])) = some .file)
    (near : parent.length ≤ cfg.patience) :
    st.fs.resolveFile cfg.patience cfg.dest (parent ++ [name]) =
      some (cfg.dest ++ (parent ++ [name])) := by
  have split : named (parent ++ [name]) = named parent ++ [.normal name] := by simp [named]
  have reads : st.fs.tree (cfg.dest ++ parent ++ [name]) = some .file := by
    rw [List.append_assoc]
    exact file
  have done : ∀ left, Cursor.walk st.fs.tree left ⟨cfg.dest ++ parent, [.normal name]⟩ =
      ⟨cfg.dest ++ parent, [.normal name]⟩ := fun left => by
    cases left with
    | zero => rfl
    | succ left => simp [Cursor.walk, Cursor.next, file]
  unfold Fs.resolveFile
  rw [split, walk_near parent real.tree near, done]
  dsimp only
  rw [if_pos reads, List.append_assoc]

/-- The host fails no call, and the reader lists exactly the directories there are. -/
structure Coherent (cfg : Setting) (st : State) : Prop where
  calm : st.trouble = []
  root : st.fs.lookup cfg.dest = some .dir
  listed : ∀ q, q ∈ st.dirs ↔ q ≠ [] ∧ st.fs.lookup (cfg.dest ++ q) = some .dir

/-- Nothing but the file system and the list of directories differs. -/
structure SameBooks (st st' : State) : Prop where
  claimed : st'.claimed = st.claimed
  symlinks : st'.symlinks = st.symlinks
  out : st'.out = st.out

theorem SameBooks.trans {st st' st'' : State} (first : SameBooks st st')
    (next : SameBooks st' st'') : SameBooks st st'' :=
  ⟨next.claimed.trans first.claimed, next.symlinks.trans first.symlinks, next.out.trans first.out⟩

theorem create_at (coherent : Coherent cfg st) {parent : Path} {name : OsStr}
    (real : Real cfg st parent) (near : parent.length ≤ cfg.patience) (node : Node) :
    st.create cfg (parent ++ [name]) node =
      match st.fs.create (cfg.dest ++ parent) name node with
      | none => ({ st with trouble := [] }, none)
      | some fs => ({ st with
          fs := fs, trouble := []
          made := st.made ++ [⟨parent ++ [name], cfg.dest ++ parent ++ [name]⟩] },
        some (cfg.dest ++ parent ++ [name])) := by
  unfold State.create Fs.createAt
  rw [coherent.calm, List.getLast?_concat, parentDir_near real near]
  dsimp only [List.headD_nil, List.tail_nil]
  cases st.fs.create (cfg.dest ++ parent) name node <;> rfl

/-- Where nothing is, an object is created, and nothing else changes. -/
theorem create_free (coherent : Coherent cfg st) {parent : Path} {name : OsStr}
    (real : Real cfg st parent) (near : parent.length ≤ cfg.patience)
    (free : st.fs.lookup (cfg.dest ++ (parent ++ [name])) = none) (node : Node) :
    ∃ st', st.create cfg (parent ++ [name]) node =
        (st', some (cfg.dest ++ (parent ++ [name]))) ∧
      st'.trouble = [] ∧ st'.dirs = st.dirs ∧ SameBooks st st' ∧
      ∀ path, st'.fs.lookup path =
        if path = cfg.dest ++ (parent ++ [name]) then some node else st.fs.lookup path := by
  have dir : st.fs.lookup (cfg.dest ++ parent) = some .dir := by
    by_cases top : parent = []
    · rw [top, List.append_nil]
      exact coherent.root
    · exact real parent top (List.prefix_refl _)
  rw [← List.append_assoc] at free ⊢
  have absent : st.fs.nodes.lookup (cfg.dest ++ parent ++ [name]) = none := by
    unfold Fs.lookup at free
    rwa [if_neg (by simp)] at free
  rw [create_at coherent real near]
  cases made : st.fs.create (cfg.dest ++ parent) name node with
  | none =>
    unfold Fs.create at made
    rw [dif_pos ⟨dir, absent⟩] at made
    cases made
  | some fs =>
    exact ⟨_, rfl, rfl, rfl, ⟨rfl, rfl, rfl⟩, (Fs.create_eq_some made).2.2⟩

/-- Where something is, none is, and none beyond the kernel's reach. -/
theorem create_needs (coherent : Coherent cfg st) {parent : Path} {name : OsStr}
    (real : Real cfg st parent) {node : Node}
    (created : (st.create cfg (parent ++ [name]) node).2 ≠ none) :
    parent.length ≤ cfg.patience ∧ st.fs.lookup (cfg.dest ++ (parent ++ [name])) = none := by
  by_cases near : parent.length ≤ cfg.patience
  · refine ⟨near, ?_⟩
    rw [create_at coherent real near] at created
    cases made : st.fs.create (cfg.dest ++ parent) name node with
    | none =>
      rw [made] at created
      exact absurd rfl created
    | some fs =>
      have free := (Fs.create_eq_some made).2.1
      rwa [List.append_assoc] at free
  · refine absurd ?_ created
    unfold State.create Fs.createAt
    rw [List.getLast?_concat, parentDir_far real (Nat.lt_of_not_le near)]
    dsimp only
    split <;> rfl

/-- Within the kernel's reach: the names above the last are no more than it follows. -/
def Near (cfg : Setting) (path : Path) : Prop :=
  path.dropLast.length ≤ cfg.patience

theorem Near.above {q path : Path} (near : Near cfg path) (pre : q <+: path) : Near cfg q := by
  have shorter := pre.length_le
  unfold Near at near ⊢
  rw [List.length_dropLast] at near ⊢
  omega

/-- What is on the way to a path, and there, is nothing, within reach, or a directory. -/
def Passable (cfg : Setting) (st : State) (path : Path) : Prop :=
  ∀ q, q <+: path → (st.fs.lookup (cfg.dest ++ q) = none ∧ Near cfg q) ∨
    st.fs.lookup (cfg.dest ++ q) = some .dir

/-- A path's directories are there now, and nothing else is new. -/
structure DirsMade (cfg : Setting) (st : State) (path : Path) (st' : State) : Prop where
  coherent : Coherent cfg st'
  books : SameBooks st st'
  lookup : ∀ q, st'.fs.lookup (cfg.dest ++ q) =
    if q ≠ [] ∧ q <+: path then some .dir else st.fs.lookup (cfg.dest ++ q)

theorem makeDirs_exact (coherent : Coherent cfg st) {done : Path} (real : Real cfg st done)
    (rest : Path) :
    (Passable cfg st (done ++ rest) →
      ∃ st', st.makeDirs cfg done rest = (st', none) ∧ DirsMade cfg st (done ++ rest) st') ∧
    ((st.makeDirs cfg done rest).2 = none → Passable cfg st (done ++ rest)) := by
  induction rest generalizing st done with
  | nil =>
    rw [List.append_nil]
    refine ⟨fun _ => ⟨st, rfl, coherent, ⟨rfl, rfl, rfl⟩, fun q => ?_⟩, fun _ q pre => .inr ?_⟩
    · split
      · rename_i above
        exact real q above.1 above.2
      · rfl
    · by_cases top : q = []
      · rw [top, List.append_nil]
        exact coherent.root
      · exact real q top pre
  | cons c rest ih =>
    have split' : done ++ c :: rest = done ++ [c] ++ rest := by simp
    have here : done ++ [c] <+: done ++ [c] ++ rest := List.prefix_append _ _
    rw [split']
    unfold State.makeDirs
    split
    · rename_i listed
      exact ih coherent (real.snoc ((coherent.listed _).mp listed).2)
    · rename_i unlisted
      have notDir : st.fs.lookup (cfg.dest ++ (done ++ [c])) ≠ some .dir := fun dir =>
        unlisted ((coherent.listed _).mpr ⟨by simp, dir⟩)
      have near_iff : Near cfg (done ++ [c]) ↔ done.length ≤ cfg.patience := by
        unfold Near
        rw [List.dropLast_concat]
      by_cases able : done.length ≤ cfg.patience ∧
          st.fs.lookup (cfg.dest ++ (done ++ [c])) = none
      · obtain ⟨near, free⟩ := able
        obtain ⟨st₁, created, calm, dirs, books, lookup⟩ :=
          create_free coherent real near free .dir
        rw [created]
        dsimp only
        have inDest : ∀ q, st₁.fs.lookup (cfg.dest ++ q) =
            if q = done ++ [c] then some .dir else st.fs.lookup (cfg.dest ++ q) := by
          intro q
          rw [lookup]
          simp only [List.append_cancel_left_eq]
        have next : Coherent cfg { st₁ with dirs := (done ++ [c]) :: st₁.dirs } := by
          refine ⟨calm, ?_, fun q => ?_⟩
          · show st₁.fs.lookup cfg.dest = _
            have top := inDest []
            rw [if_neg (by simp), List.append_nil] at top
            rw [top]
            exact coherent.root
          · show q ∈ (done ++ [c]) :: st₁.dirs ↔ q ≠ [] ∧ st₁.fs.lookup (cfg.dest ++ q) = _
            rw [List.mem_cons, inDest, dirs]
            by_cases same : q = done ++ [c]
            · rw [if_pos same]
              simp [same]
            · rw [if_neg same, coherent.listed]
              simp [same]
        have real' : Real cfg { st₁ with dirs := (done ++ [c]) :: st₁.dirs } (done ++ [c]) := by
          intro q some' pre
          show st₁.fs.lookup (cfg.dest ++ q) = _
          rw [inDest]
          split
          · rfl
          · rename_i other
            refine real q some' ?_
            rcases List.prefix_concat_iff.mp pre with same | shorter
            · exact absurd same other
            · exact shorter
        obtain ⟨onward, back⟩ := ih next real'
        constructor
        · intro passable
          obtain ⟨st', made, dirsMade⟩ := onward fun q pre => by
            show (st₁.fs.lookup (cfg.dest ++ q) = none ∧ _) ∨ st₁.fs.lookup (cfg.dest ++ q) = _
            rw [inDest]
            split
            · exact .inr rfl
            · exact passable q pre
          refine ⟨st', made, dirsMade.coherent, ?_, fun q => ?_⟩
          · exact books.trans ⟨dirsMade.books.claimed, dirsMade.books.symlinks, dirsMade.books.out⟩
          · rw [dirsMade.lookup]
            split
            · rfl
            · rename_i outside
              show st₁.fs.lookup (cfg.dest ++ q) = _
              rw [inDest, if_neg]
              rintro rfl
              exact outside ⟨by simp, here⟩
        · intro accepted q pre
          have after := back accepted q pre
          rw [show ({ st₁ with dirs := (done ++ [c]) :: st₁.dirs } : State).fs = st₁.fs from rfl,
            inDest] at after
          split at after
          · rename_i same
            rw [same]
            exact .inl ⟨free, near_iff.mpr near⟩
          · exact after
      · have refused : (st.create cfg (done ++ [c]) .dir).2 = none := by
          by_contra created
          exact able (create_needs coherent real created)
        constructor
        · intro passable
          rcases passable _ here with ⟨free, near⟩ | dir
          · exact absurd ⟨near_iff.mp near, free⟩ able
          · exact absurd dir notDir
        · intro accepted
          revert accepted refused
          cases st.create cfg (done ++ [c]) .dir with
          | mk st₁ place =>
            intro refused accepted
            obtain rfl : place = none := refused
            cases accepted


theorem makeDirsFor_exact (coherent : Coherent cfg st) (rel : Path) (display : String) :
    (Passable cfg st rel →
      ∃ st', st.makeDirsFor cfg rel display = (st', none) ∧ DirsMade cfg st rel st') ∧
    ((st.makeDirsFor cfg rel display).2 = none → Passable cfg st rel) := by
  have top : Real cfg st [] := fun q some' pre => absurd (List.prefix_nil.mp pre) some'
  obtain ⟨onward, back⟩ := makeDirs_exact coherent top rel
  unfold State.makeDirsFor
  constructor
  · intro passable
    obtain ⟨st', made, dirs⟩ := onward passable
    rw [made]
    exact ⟨st', rfl, dirs⟩
  · intro accepted
    refine back ?_
    revert accepted
    cases st.makeDirs cfg [] rel with
    | mk st' refused =>
      cases refused with
      | none => exact fun _ => rfl
      | some reason => exact fun accepted => nomatch accepted

theorem makeParent_exact (coherent : Coherent cfg st) (rel : Path) (display : String) :
    (Passable cfg st rel.dropLast →
      ∃ st', st.makeParent cfg rel display = (st', none) ∧ DirsMade cfg st rel.dropLast st') ∧
    ((st.makeParent cfg rel display).2 = none → Passable cfg st rel.dropLast) := by
  unfold State.makeParent
  split
  · rename_i top
    rw [List.isEmpty_iff.mp top]
    refine ⟨fun _ => ⟨st, rfl, coherent, ⟨rfl, rfl, rfl⟩, fun q => ?_⟩, fun _ q pre => .inr ?_⟩
    · rw [if_neg fun both => both.1 (List.prefix_nil.mp both.2)]
    · rw [List.prefix_nil.mp pre, List.append_nil]
      exact coherent.root
  · exact makeDirsFor_exact coherent rel.dropLast display

end HullCi.Fetch
