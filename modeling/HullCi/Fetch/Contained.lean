/-
**Every write of an extraction stays below its destination.**

The reader's three sets are exact: what it lists as a directory is one it made, below a chain of
directories it made. So the kernel, resolving a call's parent, never meets a link, and every object
lands where its path reads.

* `Contained` — the invariant: what exists now, what existed before, and what the reader lists.
* `contained_entry` — one entry keeps it, whether it is accepted or refused midway.
* `extraction_contained` — so does every archive, at every moment.
-/

import HullCi.Fetch.Extract

namespace HullCi.Fetch

open HullCi.Base

/-! ### Resolving below a chain of directories -/

/-- Every directory above the path, and the path itself, is listed. -/
def Chain (dirs : List Path) (path : Path) : Prop :=
  ∀ q, q ≠ [] → q <+: path → q ∈ dirs

theorem chain_nil (dirs : List Path) : Chain dirs [] :=
  fun _ some' pre => absurd (List.prefix_nil.mp pre) some'

theorem chain_snoc {dirs : List Path} {path : Path} {c : OsStr} (chain : Chain dirs path)
    (listed : path ++ [c] ∈ dirs) : Chain dirs (path ++ [c]) := by
  intro q some' pre
  rcases List.prefix_concat_iff.mp pre with rfl | shorter
  · exact listed
  · exact chain q some' shorter

theorem Chain.mono {dirs dirs' : List Path} {path : Path} (chain : Chain dirs path)
    (more : dirs ⊆ dirs') : Chain dirs' path :=
  fun q some' pre => more (chain q some' pre)

/-- Below real directories a path of names goes where it reads. -/
theorem walk_named {tree : Path → Option (Kind OsStr)} {start : Path} (path : Path)
    (dirs : ∀ q, q ≠ [] → q <+: path → tree (start ++ q) = some .dir) (patience : ℕ)
    (tail : RawPath) :
    (∃ left, Cursor.walk tree patience ⟨start, named path ++ tail⟩
        = Cursor.walk tree left ⟨start ++ path, tail⟩) ∨
      ∃ here todo, todo ≠ [] ∧ Cursor.walk tree patience ⟨start, named path ++ tail⟩
        = ⟨here, todo ++ tail⟩ := by
  induction path generalizing start patience with
  | nil => exact .inl ⟨patience, by simp [named]⟩
  | cons name path ih =>
    match patience with
    | 0 => exact .inr ⟨start, named (name :: path), by simp [named], rfl⟩
    | patience + 1 =>
      have first : tree (start ++ [name]) = some .dir :=
        dirs [name] (by simp) ⟨path, rfl⟩
      have step : Cursor.walk tree (patience + 1) ⟨start, named (name :: path) ++ tail⟩
          = Cursor.walk tree patience ⟨start ++ [name], named path ++ tail⟩ := by
        simp [Cursor.walk, Cursor.next, named, first]
      rw [step]
      have rest := @ih (start ++ [name]) (fun q some' pre => by
        have deeper := dirs (name :: q) (by simp) ((List.prefix_cons_inj name).mpr pre)
        simpa using deeper) patience
      simpa using rest

theorem parentDir_of_chain {fs : Fs} {patience : ℕ} {dest rel parent : Path}
    (dirs : ∀ q, q ≠ [] → q <+: rel.dropLast → fs.lookup (dest ++ q) = some .dir)
    (found : fs.parentDir patience dest rel = some parent) : parent = dest ++ rel.dropLast := by
  have real : ∀ q, q ≠ [] → q <+: rel.dropLast → fs.tree (dest ++ q) = some .dir := by
    intro q some' pre
    unfold Fs.tree
    rw [dirs q some' pre]
    rfl
  unfold Fs.parentDir resolveDir at found
  rcases walk_named rel.dropLast real patience [] with ⟨left, led⟩ | ⟨here, todo, some', stuck⟩
  · rw [List.append_nil] at led
    have done : Cursor.walk fs.tree left ⟨dest ++ rel.dropLast, []⟩ = ⟨dest ++ rel.dropLast, []⟩ := by
      cases left <;> rfl
    rw [led, done] at found
    exact (Option.some.inj found).symm
  · rw [List.append_nil, List.append_nil] at stuck
    rw [stuck] at found
    cases todo with
    | nil => exact absurd rfl some'
    | cons c rest => cases found

theorem resolveFile_of_chain {fs : Fs} {patience : ℕ} {dest parent path : Path} {name : OsStr}
    (dirs : ∀ q, q ≠ [] → q <+: parent → fs.lookup (dest ++ q) = some .dir)
    (file : fs.tree (dest ++ (parent ++ [name])) = some .file)
    (found : fs.resolveFile patience dest (parent ++ [name]) = some path) :
    path = dest ++ (parent ++ [name]) := by
  have real : ∀ q, q ≠ [] → q <+: parent → fs.tree (dest ++ q) = some .dir := by
    intro q some' pre
    unfold Fs.tree
    rw [dirs q some' pre]
    rfl
  have split : named (parent ++ [name]) = named parent ++ [.normal name] := by simp [named]
  unfold Fs.resolveFile at found
  rw [split] at found
  have reads : fs.tree (dest ++ parent ++ [name]) = some .file := by
    rw [List.append_assoc]
    exact file
  rw [← List.append_assoc]
  rcases walk_named parent real patience [.normal name] with ⟨left, led⟩ | ⟨here, todo, some', stuck⟩
  · have done : Cursor.walk fs.tree left ⟨dest ++ parent, [.normal name]⟩
        = ⟨dest ++ parent, [.normal name]⟩ := by
      cases left with
      | zero => rfl
      | succ left => simp [Cursor.walk, Cursor.next, file]
    rw [led, done] at found
    dsimp only at found
    rw [if_pos reads] at found
    exact (Option.some.inj found).symm
  · rw [stuck] at found
    cases todo with
    | nil => exact absurd rfl some'
    | cons c rest => cases rest <;> simp at found

/-! ### The invariant -/

/-- What existed still exists, unchanged. -/
def Grows (fs fs' : Fs) : Prop :=
  ∀ path node, fs.lookup path = some node → fs'.lookup path = some node

theorem Grows.refl (fs : Fs) : Grows fs fs :=
  fun _ _ found => found

theorem Grows.trans {fs fs' fs'' : Fs} (first : Grows fs fs') (second : Grows fs' fs'') :
    Grows fs fs'' :=
  fun path node found => second path node (first path node found)

/-- What an extraction that began with `before` has made, and what it lists of it. -/
structure Contained (cfg : Setting) (before : Fs) (st : State) : Prop where
  kept : Grows before st.fs
  new : ∀ path, before.lookup path = none → st.fs.lookup path ≠ none →
    ∃ m ∈ st.made, m.place = path
  made : ∀ m ∈ st.made, m.asked ≠ [] ∧ m.place = cfg.dest ++ m.asked ∧
    before.lookup m.place = none ∧ st.fs.lookup m.place ≠ none ∧ Chain st.dirs m.asked.dropLast
  dirs : ∀ q ∈ st.dirs, st.fs.lookup (cfg.dest ++ q) = some .dir ∧ ∃ m ∈ st.made, m.asked = q
  once : (st.made.map Made.asked).Nodup
  placed : st.placed.Nodup
  claimed : ∀ rel ∈ st.placed, (st.claimed.lookup (cfg.nfc (lossy rel))).isSome

/-- What a part of the extraction promises of the state it ends in. -/
structure Safe (cfg : Setting) (before : Fs) (st st' : State) : Prop where
  contained : Contained cfg before st'
  grows : Grows st.fs st'.fs
  dirs : st.dirs ⊆ st'.dirs

variable {cfg : Setting} {before : Fs}

theorem Contained.safe {st : State} (contained : Contained cfg before st) :
    Safe cfg before st st :=
  ⟨contained, .refl _, List.Subset.refl _⟩

theorem Safe.trans {st st' st'' : State} (first : Safe cfg before st st')
    (second : Safe cfg before st' st'') : Safe cfg before st st'' :=
  ⟨second.contained, first.grows.trans second.grows, List.Subset.trans first.dirs second.dirs⟩

theorem safe_andThen {st : State} {r : Outcome} {next : State → Outcome}
    (first : Safe cfg before st r.1)
    (then' : ∀ st', r = (st', none) → Safe cfg before st (next st').1) :
    Safe cfg before st (r.andThen next).1 := by
  obtain ⟨st', error⟩ := r
  cases error with
  | some e => exact first
  | none => exact then' st' rfl

theorem Contained.books {st st' : State} (contained : Contained cfg before st)
    (fs : st'.fs = st.fs) (made : st'.made = st.made) (dirs : st'.dirs = st.dirs)
    (placed : st'.placed = st.placed) (claimed : st'.claimed = st.claimed) :
    Contained cfg before st' := by
  obtain ⟨kept, new, produced, listed, once, nodup, keyed⟩ := contained
  constructor <;> simp only [fs, made, dirs, placed, claimed] <;> assumption

theorem Contained.real {st : State} (contained : Contained cfg before st) {path : Path}
    (chain : Chain st.dirs path) :
    ∀ q, q ≠ [] → q <+: path → st.fs.lookup (cfg.dest ++ q) = some .dir :=
  fun q some' pre => (contained.dirs q (chain q some' pre)).1

/-! ### The calls -/

/-- What a call that creates an object does below a chain of listed directories. -/
inductive Created (cfg : Setting) (before : Fs) (st : State) (rel : Path) (node : Node) :
    State × Option Path → Prop
  | refused {st' : State} (safe : Safe cfg before st st') (dirs : st'.dirs = st.dirs) :
      Created cfg before st rel node (st', none)
  | made {st' : State} (safe : Safe cfg before st st') (dirs : st'.dirs = st.dirs)
      (listed : ⟨rel, cfg.dest ++ rel⟩ ∈ st'.made)
      (free : st.fs.lookup (cfg.dest ++ rel) = none)
      (lookup : ∀ path, st'.fs.lookup path =
        if path = cfg.dest ++ rel then some node else st.fs.lookup path) :
      Created cfg before st rel node (st', some (cfg.dest ++ rel))

theorem created_create {st : State} (contained : Contained cfg before st) {rel : Path}
    (some' : rel ≠ []) (chain : Chain st.dirs rel.dropLast) (node : Node) :
    Created cfg before st rel node (st.create cfg rel node) := by
  have still : Safe cfg before st { st with trouble := st.trouble.tail } :=
    ⟨contained.books rfl rfl rfl rfl rfl, .refl _, List.Subset.refl _⟩
  unfold State.create
  dsimp only
  split
  · exact .refused still rfl
  · cases called : st.fs.createAt cfg.patience cfg.dest rel node with
    | none => exact .refused still rfl
    | some result =>
      obtain ⟨fs, place⟩ := result
      obtain ⟨parent, name, rfl⟩ : ∃ parent name, rel = parent ++ [name] :=
        ⟨rel.dropLast, rel.getLast some', (List.dropLast_append_getLast some').symm⟩
      rw [List.dropLast_concat] at chain
      unfold Fs.createAt at called
      rw [List.getLast?_concat] at called
      cases resolved : st.fs.parentDir cfg.patience cfg.dest (parent ++ [name]) with
      | none => rw [resolved] at called; cases called
      | some real =>
        rw [resolved] at called
        obtain ⟨fs', made, pair⟩ := Option.map_eq_some_iff.mp called
        obtain ⟨rfl, rfl⟩ := Prod.mk.inj pair
        have lands := parentDir_of_chain
          (by rw [List.dropLast_concat]; exact contained.real chain) resolved
        rw [List.dropLast_concat] at lands
        subst lands
        obtain ⟨-, free, lookup⟩ := Fs.create_eq_some made
        rw [List.append_assoc] at free lookup ⊢
        have grown : Grows st.fs fs' := by
          intro path node' found
          rw [lookup, if_neg, found]
          rintro rfl
          rw [free] at found
          cases found
        have absent : before.lookup (cfg.dest ++ (parent ++ [name])) = none := by
          cases known : before.lookup (cfg.dest ++ (parent ++ [name])) with
          | none => rfl
          | some node' =>
            rw [contained.kept _ _ known] at free
            cases free
        have after : Contained cfg before { st with
            fs := fs', trouble := st.trouble.tail
            made := st.made ++ [⟨parent ++ [name], cfg.dest ++ (parent ++ [name])⟩] } := by
          refine ⟨contained.kept.trans grown, fun path old now => ?_, fun m member => ?_,
            fun q listed => ?_, ?_, contained.placed, contained.claimed⟩
          · rw [lookup] at now
            split at now
            · rename_i same
              exact ⟨_, List.mem_append_right _ (List.mem_singleton_self _), same.symm⟩
            · obtain ⟨m, member, at'⟩ := contained.new path old now
              exact ⟨m, List.mem_append_left _ member, at'⟩
          · rcases List.mem_append.mp member with earlier | new
            · obtain ⟨asked, place, was, is, above⟩ := contained.made m earlier
              refine ⟨asked, place, was, ?_, above⟩
              obtain ⟨node', found⟩ := Option.ne_none_iff_exists'.mp is
              rw [grown _ _ found]
              exact Option.some_ne_none _
            · rw [List.mem_singleton.mp new]
              refine ⟨by simp, rfl, absent, ?_, by rw [List.dropLast_concat]; exact chain⟩
              rw [lookup, if_pos rfl]
              exact Option.some_ne_none _
          · obtain ⟨dir, m, member, asked⟩ := contained.dirs q listed
            exact ⟨grown _ _ dir, m, List.mem_append_left _ member, asked⟩
          · rw [List.map_append, List.nodup_append]
            refine ⟨contained.once, List.nodup_singleton _, fun asked earlier asked' new => ?_⟩
            rintro rfl
            obtain ⟨m, member, rfl⟩ := List.mem_map.mp earlier
            obtain ⟨-, place, -, is, -⟩ := contained.made m member
            rw [place, List.mem_singleton.mp new] at is
            exact is free
        exact .made ⟨after, grown, List.Subset.refl _⟩ rfl
          (List.mem_append_right _ (List.mem_singleton_self _)) free lookup

/-- A directory just made is listed, below a chain of listed ones. -/
theorem contained_listing {st st' : State} {done : Path} {c : OsStr} (safe : Safe cfg before st st')
    (chain : Chain st.dirs done) (listed : ⟨done ++ [c], cfg.dest ++ (done ++ [c])⟩ ∈ st'.made)
    (dir : st'.fs.lookup (cfg.dest ++ (done ++ [c])) = some .dir) :
    Contained cfg before { st' with dirs := (done ++ [c]) :: st'.dirs } ∧
      Chain ((done ++ [c]) :: st'.dirs) (done ++ [c]) := by
  refine ⟨⟨safe.contained.kept, safe.contained.new, fun m member => ?_, fun q member => ?_,
    safe.contained.once, safe.contained.placed, safe.contained.claimed⟩, ?_⟩
  · obtain ⟨asked, at', was, is, above⟩ := safe.contained.made m member
    exact ⟨asked, at', was, is, above.mono (List.subset_cons_self _ _)⟩
  · rcases List.mem_cons.mp member with rfl | old
    · exact ⟨dir, _, listed, rfl⟩
    · exact safe.contained.dirs q old
  · exact chain_snoc (chain.mono fun q member => List.mem_cons_of_mem _ (safe.dirs member))
      List.mem_cons_self

/-- Making a path's directories makes or finds each of them. -/
theorem safe_makeDirs {st : State} (contained : Contained cfg before st) (done rest : Path)
    (chain : Chain st.dirs done) :
    Safe cfg before st (st.makeDirs cfg done rest).1 ∧
      ((st.makeDirs cfg done rest).2 = none →
        Chain (st.makeDirs cfg done rest).1.dirs (done ++ rest)) := by
  induction rest generalizing st done with
  | nil =>
    refine ⟨contained.safe, fun _ => ?_⟩
    rw [List.append_nil]
    exact chain
  | cons c rest ih =>
    unfold State.makeDirs
    split
    · rename_i listed
      have found := ih contained (done ++ [c]) (chain_snoc chain listed)
      rwa [List.append_assoc] at found
    · have created := created_create contained (show done ++ [c] ≠ [] by simp)
        (by rw [List.dropLast_concat]; exact chain) .dir
      revert created
      cases st.create cfg (done ++ [c]) .dir with
      | mk st' place =>
        intro created
        cases created with
        | refused safe same => exact ⟨safe, fun impossible => (by cases impossible)⟩
        | made safe same listed free lookup =>
          obtain ⟨after, here⟩ := contained_listing safe chain listed (by rw [lookup, if_pos rfl])
          obtain ⟨next, reached⟩ := ih after (done ++ [c]) here
          rw [List.append_assoc] at reached
          exact ⟨⟨next.contained, safe.grows.trans next.grows, fun q member =>
            next.dirs (List.mem_cons_of_mem _ (safe.dirs member))⟩, reached⟩

theorem safe_makeDirsFor {st : State} (contained : Contained cfg before st) (rel : Path)
    (display : String) :
    Safe cfg before st (st.makeDirsFor cfg rel display).1 ∧
      ((st.makeDirsFor cfg rel display).2 = none →
        Chain (st.makeDirsFor cfg rel display).1.dirs rel) := by
  have made := safe_makeDirs contained [] rel (chain_nil _)
  unfold State.makeDirsFor
  revert made
  cases st.makeDirs cfg [] rel with
  | mk st' refused =>
    rintro ⟨safe, chain⟩
    cases refused with
    | none => exact ⟨safe, fun _ => chain rfl⟩
    | some reason => exact ⟨safe, fun impossible => (by cases impossible)⟩

theorem safe_makeParent {st : State} (contained : Contained cfg before st) (rel : Path)
    (display : String) :
    Safe cfg before st (st.makeParent cfg rel display).1 ∧
      ((st.makeParent cfg rel display).2 = none →
        Chain (st.makeParent cfg rel display).1.dirs rel.dropLast) := by
  unfold State.makeParent
  split
  · rename_i top
    rw [List.isEmpty_iff.mp top]
    exact ⟨contained.safe, fun _ => chain_nil _⟩
  · exact safe_makeDirsFor contained rel.dropLast display

theorem safe_claim {st : State} (contained : Contained cfg before st) (rel : Path)
    (display : String) : Safe cfg before st (st.claim cfg rel display).1 := by
  have keyed : ∀ (books : Table String String), (∀ key, (st.claimed.lookup key).isSome →
      (books.lookup key).isSome) → ∀ q ∈ st.placed, (books.lookup (cfg.nfc (lossy q))).isSome :=
    fun books more q member => more _ (contained.claimed q member)
  have more : ∀ key, (st.claimed.lookup key).isSome →
      ((st.claimed.insert (cfg.nfc (lossy rel)) display).lookup key).isSome := by
    intro key known
    rw [Table.lookup_insert]
    split
    · rfl
    · exact known
  unfold State.claim
  dsimp only
  cases seen : st.claimed.lookup (cfg.nfc (lossy rel)) with
  | some prev =>
    exact ⟨⟨contained.kept, contained.new, contained.made, contained.dirs, contained.once,
      contained.placed, keyed _ more⟩, .refl _, List.Subset.refl _⟩
  | none =>
    refine ⟨⟨contained.kept, contained.new, contained.made, contained.dirs, contained.once, ?_,
      fun q member => ?_⟩, .refl _, List.Subset.refl _⟩
    · rw [List.nodup_append]
      refine ⟨contained.placed, List.nodup_singleton _, fun q old q' new => ?_⟩
      rintro rfl
      have known := contained.claimed q old
      rw [List.mem_singleton.mp new, seen] at known
      cases known
    · rcases List.mem_append.mp member with old | new
      · exact keyed _ more q old
      · rw [List.mem_singleton.mp new, Table.lookup_insert, if_pos rfl]
        rfl

/-! ### Writing a file -/

/-- A state in which nothing but the object at `place`, a file of this extraction, has changed. -/
structure Within (cfg : Setting) (before : Fs) (st : State) (place : Path) (st' : State) : Prop where
  contained : Contained cfg before st'
  elsewhere : ∀ path, path ≠ place → st'.fs.lookup path = st.fs.lookup path
  file : st'.fs.tree place = some .file
  mine : ∃ m ∈ st'.made, m.place = place
  dirs : st'.dirs = st.dirs

theorem Within.safe {st st' : State} {place : Path} (within : Within cfg before st place st')
    (free : st.fs.lookup place = none) : Safe cfg before st st' := by
  refine ⟨within.contained, fun path node found => ?_, ?_⟩
  · rw [within.elsewhere, found]
    rintro rfl
    rw [free] at found
    cases found
  · rw [within.dirs]
    exact List.Subset.refl _

theorem tree_modifyFile (fs : Fs) (place : Path) (f : List UInt8 → ℕ → List UInt8 × ℕ)
    (path : Path) : (fs.modifyFile place f).tree path = fs.tree path := by
  unfold Fs.tree
  rw [Fs.lookup_modifyFile]
  split
  · rename_i same
    rw [same]
    cases fs.lookup place with
    | none => rfl
    | some node => cases node <;> rfl
  · rfl

theorem tree_eq_dir {fs : Fs} {path : Path} :
    fs.tree path = some .dir ↔ fs.lookup path = some .dir := by
  unfold Fs.tree
  cases fs.lookup path with
  | none => simp
  | some node => cases node <;> simp [Node.kind]

theorem Within.modifyFile {st st' : State} {place : Path} (within : Within cfg before st place st')
    (f : List UInt8 → ℕ → List UInt8 × ℕ) (trouble : List Bool) :
    Within cfg before st place
      { st' with fs := st'.fs.modifyFile place f, trouble := trouble } := by
  obtain ⟨⟨kept, new, made, dirs, once, placed, claimed⟩, elsewhere, file, mine, same⟩ := within
  have other : ∀ path, path ≠ place →
      (st'.fs.modifyFile place f).lookup path = st'.fs.lookup path := by
    intro path other
    rw [Fs.lookup_modifyFile, if_neg other]
  have exists_iff : ∀ path, (st'.fs.modifyFile place f).lookup path ≠ none ↔
      st'.fs.lookup path ≠ none := by
    intro path
    have same := tree_modifyFile st'.fs place f path
    unfold Fs.tree at same
    rw [← Option.isSome_iff_ne_none, ← Option.isSome_iff_ne_none, ← Option.isSome_map (f := Node.kind),
      same, Option.isSome_map]
  obtain ⟨m, member, rfl⟩ := mine
  have absent := (made m member).2.2.1
  refine ⟨⟨fun path node found => ?_, fun path old now => new path old ((exists_iff path).mp now),
    fun m' member' => ?_, fun q listed => ?_, once, placed, claimed⟩, fun path away => ?_, ?_,
    ⟨m, member, rfl⟩, same⟩
  · rw [other, kept path node found]
    rintro rfl
    rw [absent] at found
    cases found
  · obtain ⟨asked, at', was, is, above⟩ := made m' member'
    exact ⟨asked, at', was, (exists_iff _).mpr is, above⟩
  · refine ⟨?_, (dirs q listed).2⟩
    rw [← tree_eq_dir]
    exact (tree_modifyFile _ _ _ _).trans (tree_eq_dir.mpr (dirs q listed).1)
  · exact (other path away).trans (elsewhere path away)
  · exact (tree_modifyFile _ _ _ _).trans file

theorem Within.books {st st' st'' : State} {place : Path}
    (within : Within cfg before st place st') (fs : st''.fs = st'.fs) (made : st''.made = st'.made)
    (dirs : st''.dirs = st'.dirs) (placed : st''.placed = st'.placed)
    (claimed : st''.claimed = st'.claimed) : Within cfg before st place st'' := by
  refine ⟨within.contained.books fs made dirs placed claimed, ?_, ?_, ?_, dirs.trans within.dirs⟩
  · rw [fs]
    exact within.elsewhere
  · rw [fs]
    exact within.file
  · rw [made]
    exact within.mine

theorem within_copyData {st st' : State} {place : Path} (within : Within cfg before st place st')
    (entry : Entry) : Within cfg before st place (st'.copyData cfg entry place).1 := by
  unfold State.copyData
  dsimp only
  split
  · exact within.books rfl rfl rfl rfl rfl
  · have copied : ∀ written, Within cfg before st place
        { st' with fs := st'.fs.write place written, trouble := st'.trouble.tail } :=
      fun written => within.modifyFile _ _
    split
    · exact copied _
    · split
      · exact copied _
      · split
        · exact copied _
        · exact (copied _).books rfl rfl rfl rfl rfl

theorem within_setMode {st st' : State} {rel : Path} (some' : rel ≠ [])
    (within : Within cfg before st (cfg.dest ++ rel) st') (chain : Chain st'.dirs rel.dropLast)
    (mode : ℕ) : Within cfg before st (cfg.dest ++ rel) (st'.setMode cfg rel mode).1 := by
  unfold State.setMode
  dsimp only
  split
  · exact within.books rfl rfl rfl rfl rfl
  · split
    · exact within.books rfl rfl rfl rfl rfl
    · rename_i fs changed
      obtain ⟨path, resolved, rfl⟩ := Option.map_eq_some_iff.mp changed
      obtain ⟨parent, name, rfl⟩ : ∃ parent name, rel = parent ++ [name] :=
        ⟨rel.dropLast, rel.getLast some', (List.dropLast_append_getLast some').symm⟩
      rw [List.dropLast_concat] at chain
      have lands := resolveFile_of_chain (within.contained.real chain)
        within.file resolved
      subst lands
      exact within.modifyFile _ _

theorem safe_writeFile {st : State} (contained : Contained cfg before st) (entry : Entry)
    {rel : Path} (some' : rel ≠ []) (mode : ℕ) :
    Safe cfg before st (st.writeFile cfg entry rel mode).1 := by
  unfold State.writeFile
  split
  · exact contained.safe
  · obtain ⟨parents, chained⟩ := safe_makeParent contained rel entry.display
    refine safe_andThen parents fun st₁ made => ?_
    rw [made] at parents chained
    have chain := chained rfl
    have created := created_create parents.contained some' chain (.file [] 0o644)
    revert created
    cases st₁.create cfg rel (.file [] 0o644) with
    | mk st₂ place =>
      intro created
      cases created with
      | refused safe same => exact parents.trans safe
      | made safe same listed free lookup =>
        have opened : Within cfg before st₁ (cfg.dest ++ rel) st₂ := by
          refine ⟨safe.contained, fun path away => ?_, ?_, ⟨_, listed, rfl⟩, same⟩
          · rw [lookup, if_neg away]
          · unfold Fs.tree
            rw [lookup, if_pos rfl]
            rfl
        have copied := within_copyData opened entry
        refine parents.trans (safe_andThen (copied.safe free) fun st₃ done => ?_)
        rw [done] at copied
        refine (within_setMode some' copied ?_ mode).safe free
        rw [copied.dirs]
        exact chain

/-! ### Links and entries -/

theorem safe_writeSymlink {st : State} (contained : Contained cfg before st) {rel : Path}
    (some' : rel ≠ []) (target : RawPath) (display : String) :
    Safe cfg before st (st.writeSymlink cfg rel target display).1 := by
  unfold State.writeSymlink
  split
  · exact contained.safe
  · split
    · exact contained.safe
    · obtain ⟨parents, chained⟩ := safe_makeParent contained rel display
      refine safe_andThen parents fun st₁ made => ?_
      rw [made] at parents chained
      unfold State.symlink
      split
      · rename_i refused
        split at refused
        · obtain ⟨rfl, -⟩ := Prod.mk.inj refused
          exact parents.trans ⟨parents.contained.books rfl rfl rfl rfl rfl, .refl _,
            List.Subset.refl _⟩
        · have created := created_create parents.contained some' (chained rfl) (.symlink target)
          rw [refused] at created
          cases created with
          | refused safe same => exact parents.trans safe
      · rename_i linked
        split at linked
        · cases linked
        · have created := created_create parents.contained some' (chained rfl) (.symlink target)
          rw [linked] at created
          cases created with
          | made safe same listed free lookup =>
            exact parents.trans ⟨safe.contained.books rfl rfl rfl rfl rfl, safe.grows, safe.dirs⟩

theorem safe_place {st : State} (contained : Contained cfg before st) (entry : Entry) (mode : ℕ)
    {rel : Path} (some' : rel ≠ []) : Safe cfg before st (st.place cfg entry mode rel).1 := by
  have claimed := safe_claim contained rel entry.display
  unfold State.place
  dsimp only
  split
  · refine safe_andThen claimed fun st₁ done => ?_
    rw [done] at claimed
    have made := (safe_makeDirsFor claimed.contained rel entry.display).1
    refine claimed.trans (safe_andThen made fun st₂ done => ?_)
    rw [done] at made
    exact ⟨made.contained.books rfl rfl rfl rfl rfl, made.grows, made.dirs⟩
  · refine safe_andThen claimed fun st₁ done => ?_
    rw [done] at claimed
    have made := safe_writeFile claimed.contained entry some' mode
    refine claimed.trans (safe_andThen made fun st₂ done => ?_)
    rw [done] at made
    exact ⟨made.contained.books rfl rfl rfl rfl rfl, made.grows, made.dirs⟩
  · refine safe_andThen claimed fun st₁ done => ?_
    rw [done] at claimed
    have made := safe_writeFile claimed.contained entry some' mode
    refine claimed.trans (safe_andThen made fun st₂ done => ?_)
    rw [done] at made
    exact ⟨made.contained.books rfl rfl rfl rfl rfl, made.grows, made.dirs⟩
  · refine safe_andThen claimed fun st₁ done => ?_
    rw [done] at claimed
    split
    · exact claimed
    · exact claimed
    · rename_i target _
      have made := safe_writeSymlink claimed.contained some' target entry.display
      refine claimed.trans (safe_andThen made fun st₂ done => ?_)
      rw [done] at made
      exact ⟨made.contained.books rfl rfl rfl rfl rfl, made.grows, made.dirs⟩
  all_goals exact contained.safe

theorem checkPath_ne_nil {limits : Limits} {out : Path} {path : RawPath} {rel : Path}
    (checked : State.checkPath limits out path = .ok (some rel)) : rel ≠ [] := by
  fun_induction State.checkPath limits out path with
  | case1 out =>
    split at checked
    · cases checked
    · rename_i some'
      obtain rfl := Option.some.inj (Except.ok.inj checked)
      simpa using some'
  | case2 out rest ih => exact ih checked
  | case10 out name rest short clean plain shallow ih => exact ih checked
  | _ => cases checked

/-- **One entry keeps the invariant, accepted or refused midway.** -/
theorem safe_entry {st : State} (contained : Contained cfg before st) (entry : Entry) :
    Safe cfg before st (st.entry cfg entry).1 := by
  unfold State.entry
  dsimp only
  split
  · exact contained.safe
  · split
    · exact contained.safe
    · split
      · exact contained.safe
      · split
        · exact contained.safe
        · split
          · exact contained.safe
          · exact contained.safe
          · rename_i checked
            split
            · exact contained.safe
            · exact safe_place contained entry _ (checkPath_ne_nil checked)

theorem safe_entries {st : State} (contained : Contained cfg before st)
    (archive : List (Except ExtractError Entry)) :
    Safe cfg before st (st.entries cfg archive).1 := by
  induction archive generalizing st with
  | nil => exact contained.safe
  | cons item archive ih =>
    cases item with
    | error e => exact contained.safe
    | ok entry =>
      have first := safe_entry contained entry
      refine safe_andThen first fun st' done => ?_
      rw [done] at first
      exact first.trans (ih first.contained)

theorem contained_start (cfg : Setting) (fs : Fs) (trouble : List Bool) :
    Contained cfg fs { fs := fs, trouble := trouble } where
  kept := .refl fs
  new := fun path old now => absurd old now
  made := fun m member => by cases member
  dirs := fun q member => by cases member
  once := List.nodup_nil
  placed := List.nodup_nil
  claimed := fun q member => by cases member

theorem entries_append (cfg : Setting) (st : State) (front back : List (Except ExtractError Entry)) :
    st.entries cfg (front ++ back) = (st.entries cfg front).andThen fun st => st.entries cfg back := by
  induction front generalizing st with
  | nil => rfl
  | cons item front ih =>
    cases item with
    | error e => rfl
    | ok entry =>
      show (st.entry cfg entry).andThen _ = ((st.entry cfg entry).andThen _).andThen _
      rcases st.entry cfg entry with ⟨st', _ | e⟩
      · exact ih st'
      · rfl

/-- **Extraction writes are contained.** Whatever the archive holds and wherever the extraction
stops: every object it has created lies strictly below the destination, where its path reads, under
real directories that this extraction created; whatever existed is still there unchanged, and
nothing else is new; no path is created twice and no two entries are written to one path; and what
one entry has written no later entry changes. -/
theorem extraction_contained (cfg : Setting) (fs : Fs) (trouble : List Bool)
    (archive : List (Except ExtractError Entry)) :
    (∀ m ∈ (extractInto cfg fs trouble archive).1.made,
      m.asked ≠ [] ∧ m.place = cfg.dest ++ m.asked ∧ fs.lookup m.place = none ∧
      ∀ q, q ≠ [] → q <+: m.asked.dropLast →
        (extractInto cfg fs trouble archive).1.fs.lookup (cfg.dest ++ q) = some .dir ∧
        ∃ m' ∈ (extractInto cfg fs trouble archive).1.made, m'.place = cfg.dest ++ q) ∧
    (∀ path node, fs.lookup path = some node →
      (extractInto cfg fs trouble archive).1.fs.lookup path = some node) ∧
    (∀ path, fs.lookup path = none →
      (extractInto cfg fs trouble archive).1.fs.lookup path ≠ none →
      ∃ m ∈ (extractInto cfg fs trouble archive).1.made, m.place = path) ∧
    ((extractInto cfg fs trouble archive).1.made.map Made.place).Nodup ∧
    (extractInto cfg fs trouble archive).1.placed.Nodup ∧
    ∀ front back, archive = front ++ back → (extractInto cfg fs trouble front).2 = none →
      ∀ path node, (extractInto cfg fs trouble front).1.fs.lookup path = some node →
        (extractInto cfg fs trouble archive).1.fs.lookup path = some node := by
  have start := contained_start cfg fs trouble
  have reached : ∀ archive, Contained cfg fs (extractInto cfg fs trouble archive).1 := by
    intro archive
    unfold extractInto
    dsimp only
    split
    · exact start
    · exact start
    · exact (safe_entries start archive).contained
  obtain ⟨kept, new, made, dirs, once, placed, -⟩ := reached archive
  refine ⟨fun m member => ?_, kept, new, ?_, placed, ?_⟩
  · obtain ⟨asked, place, was, -, above⟩ := made m member
    refine ⟨asked, place, was, fun q some' pre => ?_⟩
    obtain ⟨dir, m', member', rfl⟩ := dirs q (above q some' pre)
    exact ⟨dir, m', member', (made m' member').2.1⟩
  · have places : (extractInto cfg fs trouble archive).1.made.map Made.place
        = ((extractInto cfg fs trouble archive).1.made.map Made.asked).map (cfg.dest ++ ·) := by
      rw [List.map_map]
      exact List.map_congr_left fun m member => (made m member).2.1
    rw [places]
    exact once.map fun q q' same => List.append_cancel_left same
  · rintro front back rfl accepted
    have later : Grows (extractInto cfg fs trouble front).1.fs
        (extractInto cfg fs trouble (front ++ back)).1.fs := by
      have safe := reached front
      revert accepted safe
      unfold extractInto
      dsimp only
      split
      · exact fun _ _ => .refl _
      · exact fun _ _ => .refl _
      · rw [entries_append]
        rcases State.entries cfg { fs := fs, trouble := trouble } front with ⟨st', _ | e⟩
        · exact fun _ safe => (safe_entries safe back).grows
        · intro accepted
          cases accepted
    exact later

end HullCi.Fetch
