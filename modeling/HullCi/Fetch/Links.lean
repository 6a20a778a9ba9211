/-
**The tree an archive lists, and the links in it.**

An accepted archive leaves below its destination exactly the tree its entries list. A link is
checked as its target reads; the kernel resolves it through the links it meets on the way.

* `Shows` — the objects below the destination are the listed ones.
* `shows_entries` — every accepted entry adds its own, and nothing else.
* `links_contained` — no resolution leaves the destination, unless a link's target takes `..` where
  another link has just led it back to the destination.
-/

import HullCi.Fetch.Contained

namespace HullCi.Fetch

open HullCi.Base

/-! ### What an archive lists -/

/-- A tree below a destination. -/
abbrev Listing := Path → Option (Kind OsStr)

/-- The tree with a path's directories in it. -/
def dirsTo (tree : Listing) (path : Path) : Listing :=
  fun q => if q ≠ [] ∧ q <+: path then some .dir else tree q

/-- The tree with one object more. -/
def put (tree : Listing) (path : Path) (kind : Kind OsStr) : Listing :=
  fun q => if q = path then some kind else tree q

/-- An entry's checked path; `none` for the archive's root and for what has no path. -/
def Entry.rel (limits : Limits) (e : Entry) : Option Path :=
  if e.kind = .xGlobalHeader then none
  else
    match e.path.map (State.checkPath limits []) with
    | some (.ok rel) => rel
    | _ => none

/-- What a placed entry adds to the tree. -/
def placeEntry (tree : Listing) (e : Entry) (rel : Path) : Listing :=
  match e.kind, e.linkName with
  | .directory, _ => dirsTo tree rel
  | .regular, _ | .continuous, _ => put (dirsTo tree rel.dropLast) rel .file
  | .symlink, some (some target) => put (dirsTo tree rel.dropLast) rel (.link target)
  | _, _ => tree

/-- The tree with one entry more. -/
def listEntry (limits : Limits) (tree : Listing) (e : Entry) : Listing :=
  match e.rel limits with
  | none => tree
  | some rel => placeEntry tree e rel

/-- The tree an archive lists. -/
def listed (limits : Limits) (archive : List (Except ExtractError Entry)) : Listing :=
  (archive.filterMap Except.toOption).foldl (listEntry limits) fun q =>
    if q = [] then some .dir else none

/-! ### What an extraction leaves -/

/-- The objects below the destination are those of the tree. -/
def Shows (cfg : Setting) (st : State) (tree : Listing) : Prop :=
  ∀ q, st.fs.tree (cfg.dest ++ q) = tree q

theorem shows_of_fs {cfg : Setting} {st st' : State} {tree : Listing} (shown : Shows cfg st tree)
    (same : st'.fs = st.fs) : Shows cfg st' tree := by
  intro q
  rw [same]
  exact shown q

theorem shows_start {cfg : Setting} {fs : Fs} (empty : fs.readDir cfg.dest = some [])
    (trouble : List Bool) :
    Shows cfg { fs := fs, trouble := trouble } fun q => if q = [] then some .dir else none := by
  unfold Fs.readDir at empty
  split at empty
  · rename_i dir
    have nothing := Option.some.inj empty
    rw [List.filterMap_eq_nil_iff] at nothing
    have absent : ∀ q, q ≠ [] → fs.lookup (cfg.dest ++ q) = none := by
      intro q
      induction q using List.reverseRecOn with
      | nil => exact fun some' => absurd rfl some'
      | append_singleton q name ih =>
        intro _
        cases found : fs.lookup (cfg.dest ++ (q ++ [name])) with
        | none => rfl
        | some node =>
          rw [← List.append_assoc] at found
          by_cases top : q = []
          · -- An object right below the destination would have been read.
            subst top
            rw [List.append_nil] at found
            unfold Fs.lookup at found
            rw [if_neg (by simp)] at found
            have key : cfg.dest ++ [name] ∈ fs.nodes.keys := by
              exact AList.lookup_isSome.mp (by rw [found]; rfl)
            have read := nothing _ key
            rw [List.dropLast_concat, if_pos rfl, List.getLast?_concat] at read
            cases read
          · have parent := Fs.parent_of_lookup found
            rw [ih top] at parent
            cases parent
    intro q
    show (fs.lookup (cfg.dest ++ q)).map Node.kind = if q = [] then some .dir else none
    by_cases top : q = []
    · rw [if_pos top, top, List.append_nil, dir]
      rfl
    · rw [if_neg top, absent q top]
      rfl
  · cases empty

variable {cfg : Setting} {before : Fs}

theorem shows_created {st st' : State} {tree : Listing} (shown : Shows cfg st tree) {rel : Path}
    {node : Node} (lookup : ∀ path, st'.fs.lookup path =
      if path = cfg.dest ++ rel then some node else st.fs.lookup path) :
    Shows cfg st' (put tree rel node.kind) := by
  intro q
  unfold Fs.tree put
  rw [lookup, ← shown q]
  unfold Fs.tree
  by_cases same : q = rel
  · rw [if_pos same, if_pos (by rw [same])]
    rfl
  · rw [if_neg same, if_neg (fun again => same (List.append_cancel_left again))]

theorem shows_makeDirs {st st' : State} {tree : Listing} (contained : Contained cfg before st)
    (shown : Shows cfg st tree) (done rest : Path) (chain : Chain st.dirs done)
    (made : st.makeDirs cfg done rest = (st', none)) :
    Shows cfg st' (dirsTo tree (done ++ rest)) := by
  induction rest generalizing st tree done with
  | nil =>
    obtain ⟨rfl, -⟩ := Prod.mk.inj made
    intro q
    rw [shown q]
    unfold dirsTo
    split
    · rename_i above
      rw [List.append_nil] at above
      rw [← shown q]
      exact tree_eq_dir.mpr (contained.real chain q above.1 above.2)
    · rfl
  | cons c rest ih =>
    have split' : done ++ c :: rest = done ++ [c] ++ rest := by simp
    unfold State.makeDirs at made
    split at made
    · rename_i listed
      rw [split']
      exact ih contained shown (done ++ [c]) (chain_snoc chain listed) made
    · have created := created_create contained (show done ++ [c] ≠ [] by simp)
        (by rw [List.dropLast_concat]; exact chain) .dir
      revert made created
      cases st.create cfg (done ++ [c]) .dir with
      | mk st₁ place =>
        intro made created
        cases created with
        | refused safe same => cases made
        | made safe same listed free lookup =>
          obtain ⟨kept, here⟩ := contained_listing safe chain listed (by rw [lookup, if_pos rfl])
          have after := ih kept (shows_of_fs (shows_created shown lookup) rfl) (done ++ [c]) here made
          rw [← split'] at after
          intro q
          rw [after q]
          unfold dirsTo put
          split
          · rfl
          · rename_i outside
            rw [if_neg]
            rintro rfl
            exact outside ⟨by simp, ⟨rest, split'.symm⟩⟩

theorem shows_makeDirsFor {st st' : State} {tree : Listing} (contained : Contained cfg before st)
    (shown : Shows cfg st tree) {rel : Path} {display : String}
    (made : st.makeDirsFor cfg rel display = (st', none)) : Shows cfg st' (dirsTo tree rel) := by
  unfold State.makeDirsFor at made
  cases called : st.makeDirs cfg [] rel with
  | mk st₁ refused =>
    rw [called] at made
    cases refused with
    | some reason => cases made
    | none =>
      obtain ⟨rfl, -⟩ := Prod.mk.inj made
      exact shows_makeDirs contained shown [] rel (chain_nil _) called

theorem shows_makeParent {st st' : State} {tree : Listing} (contained : Contained cfg before st)
    (shown : Shows cfg st tree) {rel : Path} {display : String}
    (made : st.makeParent cfg rel display = (st', none)) :
    Shows cfg st' (dirsTo tree rel.dropLast) := by
  unfold State.makeParent at made
  split at made
  · rename_i top
    obtain ⟨rfl, -⟩ := Prod.mk.inj made
    intro q
    rw [shown q, List.isEmpty_iff.mp top]
    unfold dirsTo
    rw [if_neg (fun both => both.1 (List.prefix_nil.mp both.2))]
  · exact shows_makeDirsFor contained shown made

theorem shows_claim {st st' : State} {tree : Listing} (shown : Shows cfg st tree) {rel : Path}
    {display : String} (claimed : st.claim cfg rel display = (st', none)) : Shows cfg st' tree := by
  unfold State.claim at claimed
  dsimp only at claimed
  split at claimed
  · obtain ⟨rfl, -⟩ := Prod.mk.inj claimed
    exact shown
  · cases claimed

theorem shows_modifyFile {st : State} {tree : Listing} (shown : Shows cfg st tree) (place : Path)
    (f : List UInt8 → ℕ → List UInt8 × ℕ) {st' : State} (same : st'.fs = st.fs.modifyFile place f) :
    Shows cfg st' tree := by
  intro q
  rw [same]
  exact (tree_modifyFile _ _ _ _).trans (shown q)

theorem shows_copyData {st st' : State} {tree : Listing} (shown : Shows cfg st tree) {entry : Entry}
    {place : Path} (copied : st.copyData cfg entry place = (st', none)) : Shows cfg st' tree := by
  unfold State.copyData at copied
  dsimp only at copied
  split at copied
  · cases copied
  · split at copied
    · cases copied
    · split at copied
      · cases copied
      · split at copied
        · cases copied
        · obtain ⟨rfl, -⟩ := Prod.mk.inj copied
          exact shows_modifyFile shown place _ rfl

theorem shows_setMode {st st' : State} {tree : Listing} (shown : Shows cfg st tree) {rel : Path}
    {mode : ℕ} (set : st.setMode cfg rel mode = (st', none)) : Shows cfg st' tree := by
  unfold State.setMode at set
  dsimp only at set
  split at set
  · cases set
  · split at set
    · cases set
    · rename_i changed
      obtain ⟨path, -, rfl⟩ := Option.map_eq_some_iff.mp changed
      obtain ⟨rfl, -⟩ := Prod.mk.inj set
      exact shows_modifyFile shown path _ rfl

/-- A part of the extraction that ends well is its first half, ended well, and its second. -/
theorem andThen_eq_none {r : Outcome} {next : State → Outcome} {st' : State}
    (done : r.andThen next = (st', none)) : ∃ st, r = (st, none) ∧ next st = (st', none) := by
  obtain ⟨st, error⟩ := r
  cases error with
  | none => exact ⟨st, rfl, done⟩
  | some e => cases done

theorem shows_writeFile {st st' : State} {tree : Listing} (contained : Contained cfg before st)
    (shown : Shows cfg st tree) {entry : Entry} {rel : Path} (some' : rel ≠ []) {mode : ℕ}
    (written : st.writeFile cfg entry rel mode = (st', none)) :
    Shows cfg st' (put (dirsTo tree rel.dropLast) rel .file) := by
  unfold State.writeFile at written
  split at written
  · cases written
  · obtain ⟨st₁, made, written⟩ := andThen_eq_none written
    have parents := safe_makeParent contained rel entry.display
    rw [made] at parents
    have above := shows_makeParent contained shown made
    have created := created_create parents.1.contained some' (parents.2 rfl) (.file [] 0o644)
    revert created written
    cases st₁.create cfg rel (.file [] 0o644) with
    | mk st₂ place =>
      intro written created
      cases created with
      | refused safe same => cases written
      | made safe same listed free lookup =>
        obtain ⟨st₃, copied, set⟩ := andThen_eq_none written
        exact shows_setMode (shows_copyData (shows_created above lookup) copied) set

theorem shows_writeSymlink {st st' : State} {tree : Listing} (contained : Contained cfg before st)
    (shown : Shows cfg st tree) {rel : Path} (some' : rel ≠ []) {target : RawPath} {display : String}
    (written : st.writeSymlink cfg rel target display = (st', none)) :
    State.checkTarget rel.dropLast target = none ∧
      Shows cfg st' (put (dirsTo tree rel.dropLast) rel (.link target)) := by
  unfold State.writeSymlink at written
  split at written
  · cases written
  · split at written
    · cases written
    · rename_i inside
      refine ⟨inside, ?_⟩
      obtain ⟨st₁, made, written⟩ := andThen_eq_none written
      have parents := safe_makeParent contained rel display
      rw [made] at parents
      have above := shows_makeParent contained shown made
      unfold State.symlink at written
      split at written
      · cases written
      · rename_i linked
        obtain ⟨rfl, -⟩ := Prod.mk.inj written
        split at linked
        · cases linked
        · have created := created_create parents.1.contained some' (parents.2 rfl) (.symlink target)
          rw [linked] at created
          cases created with
          | made safe same listed free lookup =>
            exact shows_of_fs (shows_created above lookup) rfl

/-- Every link of the tree has a target that stays inside as it reads. -/
def Reads (tree : Listing) : Prop :=
  ∀ q name target, tree (q ++ [name]) = some (.link target) → (lexical q target).isSome

theorem lexical_of_checkTarget {stack : List OsStr} {target : RawPath}
    (checked : State.checkTarget stack target = none) : (lexical stack target).isSome := by
  fun_induction State.checkTarget stack target with
  | case1 stack => rfl
  | case2 stack rest ih => exact ih checked
  | case3 stack rest top => cases checked
  | case4 stack rest deep ih =>
    unfold lexical
    rw [if_neg deep]
    exact ih checked
  | case5 stack name rest ih => exact ih checked
  | case6 stack rest => cases checked

theorem reads_dirsTo {tree : Listing} (reads : Reads tree) (path : Path) :
    Reads (dirsTo tree path) := by
  intro q name target found
  unfold dirsTo at found
  split at found
  · cases found
  · exact reads q name target found

theorem reads_put {tree : Listing} (reads : Reads tree) (path : Path) {kind : Kind OsStr}
    (inside : ∀ target, kind = .link target → State.checkTarget path.dropLast target = none) :
    Reads (put tree path kind) := by
  intro q name target found
  unfold put at found
  split at found
  · rename_i same
    rw [← same, List.dropLast_concat] at inside
    exact lexical_of_checkTarget (inside target (Option.some.inj found))
  · exact reads q name target found

/-- An accepted entry names nothing, or is placed at its path. -/
theorem entry_cases {st st' : State} {entry : Entry}
    (accepted : st.entry cfg entry = (st', none)) :
    entry.rel cfg.limits = none ∧ st' = st ∨
      ∃ rel, entry.rel cfg.limits = some rel ∧ rel ≠ [] ∧
        st.place cfg entry (entry.mode.getD 0o644) rel = (st', none) := by
  unfold State.entry at accepted
  unfold Entry.rel
  dsimp only at accepted
  split at accepted
  · rename_i global
    rw [if_pos global]
    exact .inl ⟨rfl, (Prod.mk.inj accepted).1.symm⟩
  · rename_i plain
    rw [if_neg plain]
    split at accepted
    · cases accepted
    · split at accepted
      · cases accepted
      · split at accepted
        · cases accepted
        · rename_i path named'
          rw [named', Option.map_some]
          split at accepted
          · cases accepted
          · rename_i root
            rw [root]
            exact .inl ⟨rfl, (Prod.mk.inj accepted).1.symm⟩
          · rename_i rel checked
            rw [checked]
            split at accepted
            · cases accepted
            · exact .inr ⟨rel, rfl, checkPath_ne_nil checked, accepted⟩

theorem shows_place {st st' : State} {tree : Listing} (contained : Contained cfg before st)
    (shown : Shows cfg st tree) (reads : Reads tree) {entry : Entry} {mode : ℕ} {rel : Path}
    (some' : rel ≠ []) (placed : st.place cfg entry mode rel = (st', none)) :
    Shows cfg st' (placeEntry tree entry rel) ∧ Reads (placeEntry tree entry rel) := by
  have claim : ∀ st₁, st.claim cfg rel entry.display = (st₁, none) →
      Contained cfg before st₁ ∧ Shows cfg st₁ tree := by
    intro st₁ claimed
    have safe := safe_claim contained rel entry.display
    rw [claimed] at safe
    exact ⟨safe.contained, shows_claim shown claimed⟩
  have file : ∀ st₁ st₂, st.claim cfg rel entry.display = (st₁, none) →
      st₁.writeFile cfg entry rel mode = (st₂, none) →
      Shows cfg st₂ (put (dirsTo tree rel.dropLast) rel .file) := by
    intro st₁ st₂ claimed written
    obtain ⟨kept, still⟩ := claim st₁ claimed
    exact shows_writeFile kept still some' written
  have plain : Reads (put (dirsTo tree rel.dropLast) rel .file) :=
    reads_put (reads_dirsTo reads _) rel fun target impossible => by cases impossible
  unfold State.place at placed
  unfold placeEntry
  dsimp only at placed
  cases kind : entry.kind <;> rw [kind] at placed <;> dsimp only at placed ⊢
  case directory =>
    obtain ⟨st₁, claimed, rest⟩ := andThen_eq_none placed
    obtain ⟨st₂, made, counted⟩ := andThen_eq_none rest
    obtain ⟨rfl, -⟩ := Prod.mk.inj counted
    obtain ⟨kept, still⟩ := claim st₁ claimed
    exact ⟨shows_of_fs (shows_makeDirsFor kept still made) rfl, reads_dirsTo reads rel⟩
  case regular =>
    obtain ⟨st₁, claimed, rest⟩ := andThen_eq_none placed
    obtain ⟨st₂, written, counted⟩ := andThen_eq_none rest
    obtain ⟨rfl, -⟩ := Prod.mk.inj counted
    exact ⟨shows_of_fs (file st₁ st₂ claimed written) rfl, plain⟩
  case continuous =>
    obtain ⟨st₁, claimed, rest⟩ := andThen_eq_none placed
    obtain ⟨st₂, written, counted⟩ := andThen_eq_none rest
    obtain ⟨rfl, -⟩ := Prod.mk.inj counted
    exact ⟨shows_of_fs (file st₁ st₂ claimed written) rfl, plain⟩
  case symlink =>
    obtain ⟨st₁, claimed, rest⟩ := andThen_eq_none placed
    split at rest
    · cases rest
    · cases rest
    · rename_i target named'
      obtain ⟨st₂, written, counted⟩ := andThen_eq_none rest
      obtain ⟨rfl, -⟩ := Prod.mk.inj counted
      obtain ⟨kept, still⟩ := claim st₁ claimed
      obtain ⟨inside, linked⟩ := shows_writeSymlink kept still some' written
      rw [named']
      refine ⟨shows_of_fs linked rfl, reads_put (reads_dirsTo reads _) rel fun target' same => ?_⟩
      obtain rfl := Kind.link.inj same
      exact inside
  all_goals cases placed

/-- **Accepted entries add what they list, and nothing else.** -/
theorem shows_entries {st st' : State} {tree : Listing} (contained : Contained cfg before st)
    (shown : Shows cfg st tree) (reads : Reads tree) (archive : List (Except ExtractError Entry))
    (accepted : st.entries cfg archive = (st', none)) :
    Shows cfg st' ((archive.filterMap Except.toOption).foldl (listEntry cfg.limits) tree) ∧
      Reads ((archive.filterMap Except.toOption).foldl (listEntry cfg.limits) tree) := by
  induction archive generalizing st tree with
  | nil =>
    obtain ⟨rfl, -⟩ := Prod.mk.inj accepted
    exact ⟨shown, reads⟩
  | cons item archive ih =>
    cases item with
    | error e => cases accepted
    | ok entry =>
      obtain ⟨st₁, first, rest⟩ := andThen_eq_none accepted
      have kept := (safe_entry contained entry).contained
      rw [first] at kept
      have next : Shows cfg st₁ (listEntry cfg.limits tree entry) ∧
          Reads (listEntry cfg.limits tree entry) := by
        unfold listEntry
        rcases entry_cases first with ⟨nothing, rfl⟩ | ⟨rel, named', some', placed⟩
        · rw [nothing]
          exact ⟨shown, reads⟩
        · rw [named']
          exact shows_place contained shown reads some' placed
      exact ih kept next.1 next.2 rest

theorem shows_extracted {fs : Fs} {trouble : List Bool} {archive : List (Except ExtractError Entry)}
    (accepted : (extractInto cfg fs trouble archive).2 = none) :
    Shows cfg (extractInto cfg fs trouble archive).1 (listed cfg.limits archive) ∧
      Reads (listed cfg.limits archive) := by
  unfold extractInto at accepted ⊢
  dsimp only at accepted ⊢
  split at accepted
  · cases accepted
  · cases accepted
  · rename_i empty
    have start : Reads fun q => if q = [] then some .dir else none := by
      intro q name target found
      dsimp only at found
      rw [if_neg (by simp)] at found
      cases found
    exact shows_entries (contained_start cfg fs trouble) (shows_start empty trouble) start archive
      (Prod.ext rfl accepted)

/-! ### Where links lead -/

/-- **Links that stay inside.** In the tree of an accepted archive no resolution leaves the
destination, at any step, exactly when no link's target takes `..` where another link has just led
it back to the destination; or when the destination is the host's own root. -/
theorem links_contained (cfg : Setting) (fs : Fs) (trouble : List Bool)
    (archive : List (Except ExtractError Entry))
    (accepted : (extractInto cfg fs trouble archive).2 = none) :
    (∀ path c, Reaches (extractInto cfg fs trouble archive).1.fs.tree ⟨cfg.dest, named path⟩ c →
        cfg.dest <+: c.here) ↔
      cfg.dest = [] ∨ ¬ Backtracks (listed cfg.limits archive) := by
  obtain ⟨shown, reads⟩ := shows_extracted accepted
  set st := (extractInto cfg fs trouble archive).1 with reached
  have same : below st.fs.tree cfg.dest = listed cfg.limits archive := funext shown
  by_cases top : cfg.dest = []
  · constructor
    · exact fun _ => .inl top
    · intro _ path c _
      rw [top]
      exact List.nil_prefix
  · have climbs : ∀ path, Climbs (listed cfg.limits archive) [] (named path) ↔
        ∃ c, Reaches st.fs.tree ⟨cfg.dest, named path⟩ c ∧ ¬ cfg.dest <+: c.here := by
      intro path
      have iff' : Climbs (below st.fs.tree cfg.dest) [] (named path) ↔ _ :=
        climbs_iff top [] (named path)
      rwa [same, List.append_nil] at iff'
    have nested : ∀ p name, (listed cfg.limits archive (p ++ [name])).isSome →
        p = [] ∨ listed cfg.limits archive p = some .dir := by
      intro p name known
      right
      rw [← shown, ← List.append_assoc] at known
      rw [← shown, tree_eq_dir]
      unfold Fs.tree at known
      rw [Option.isSome_map] at known
      obtain ⟨node, found⟩ := Option.isSome_iff_exists.mp known
      exact Fs.parent_of_lookup found
    constructor
    · intro inside
      refine .inr fun backtracks => ?_
      obtain ⟨path, climb⟩ := climbs_of_backtracks nested backtracks
      obtain ⟨c, reaches, out⟩ := (climbs path).mp climb
      exact out (inside path c reaches)
    · rintro (root | none') path c reaches
      · exact absurd root top
      · by_contra out
        exact none' (backtracks_of_climbs reads ((climbs path).mpr ⟨c, reaches, out⟩))

/-! ### Two archives -/

/-- A host that holds nothing but an empty directory. -/
def bareHost : Fs where
  nodes := (∅ : Table Path Node).insert [.text "tree"] .dir
  nested := by
    intro parent name node found
    rw [Table.lookup_insert] at found
    split at found
    · rename_i same
      exact .inl (List.append_inj' (same.trans (List.nil_append _).symm) rfl).1
    · cases found

def bareSetting : Setting where
  dest := [.text "tree"]
  limits := {}
  nfc := id
  patience := 64

def linkEntry (display : String) (path target : RawPath) : Except ExtractError Entry :=
  .ok { kind := .symlink, display := display, path := some path, linkName := some (some target) }

/-- A link to a file next to it. -/
def plainLink : List (Except ExtractError Entry) :=
  [.ok { kind := .regular, display := "real", path := some [.normal (.text "real")] },
    linkEntry "link" [.normal (.text "link")] [.normal (.text "real")]]

/-- A link up to the root, and one that goes through it and up again. -/
def ladder : List (Except ExtractError Entry) :=
  [linkEntry "a/b/up" [.normal (.text "a"), .normal (.text "b"), .normal (.text "up")]
      [.parentDir, .parentDir],
    linkEntry "out" [.normal (.text "out")]
      [.normal (.text "a"), .normal (.text "b"), .normal (.text "up"), .parentDir]]

theorem links_contained_plain :
    (∀ path c, Reaches (extractInto bareSetting bareHost [] plainLink).1.fs.tree
        ⟨bareSetting.dest, named path⟩ c → bareSetting.dest <+: c.here) ↔
      bareSetting.dest = [] ∨ ¬ Backtracks (listed bareSetting.limits plainLink) :=
  links_contained bareSetting bareHost [] plainLink (by decide +kernel)

theorem reaches_walk (tree : Path → Option (Kind OsStr)) (patience : ℕ) (c : Cursor OsStr) :
    Reaches tree c (Cursor.walk tree patience c) := by
  induction patience generalizing c with
  | zero => exact .refl
  | succ patience ih =>
    unfold Cursor.walk
    cases step : c.next tree with
    | none => exact .refl
    | some c' => exact .head step (ih c')

/-- Each link of the ladder stays inside as it reads, and resolving the second leaves the tree. -/
theorem ladder_leaves :
    (extractInto bareSetting bareHost [] ladder).2 = none ∧
      ¬ ∀ path c, Reaches (extractInto bareSetting bareHost [] ladder).1.fs.tree
        ⟨bareSetting.dest, named path⟩ c → bareSetting.dest <+: c.here := by
  refine ⟨by decide +kernel, fun inside => ?_⟩
  have followed := inside [.text "out"] _ (reaches_walk _ 7 _)
  revert followed
  decide +kernel

end HullCi.Fetch
