/-
**Paths that a normalizing file system takes for one.**

Each accepted entry claims its whole path, under normalization. The directories above it are made as
they are spelled and claim nothing: two spellings of one ancestor both come to be.

* `Grown` — what the calls of one entry add: objects at the entry's path and above it.
* `Settled` — what was accepted: each path is there, claimed under a key of its own, and nothing is
  there but these paths and their ancestors.
* `no_collision_iff` — no two paths of an extracted tree collide exactly when its entries spell the
  ancestors they share alike.
-/

import HullCi.Fetch.Contained

namespace HullCi.Fetch

open HullCi.Base

/-! ### What one entry adds -/

/-- Objects are added at a path and above it, and no entry is claimed. -/
structure Grown (rel : Path) (st st' : State) : Prop where
  kept : st.made ⊆ st'.made
  new : ∀ m ∈ st'.made, m ∈ st.made ∨ m.asked <+: rel
  placed : st'.placed = st.placed
  claimed : st'.claimed = st.claimed

variable {cfg : Setting}

theorem Grown.same {rel : Path} {st st' : State} (made : st'.made = st.made)
    (placed : st'.placed = st.placed) (claimed : st'.claimed = st.claimed) : Grown rel st st' := by
  refine ⟨?_, fun m member => .inl ?_, placed, claimed⟩
  · rw [made]
    exact List.Subset.refl _
  · rwa [made] at member

theorem Grown.trans {rel : Path} {st st' st'' : State} (first : Grown rel st st')
    (second : Grown rel st' st'') : Grown rel st st'' where
  kept := List.Subset.trans first.kept second.kept
  new m member := by
    rcases second.new m member with before | here
    · exact first.new m before
    · exact .inr here
  placed := second.placed.trans first.placed
  claimed := second.claimed.trans first.claimed

theorem Grown.above {rel above : Path} {st st' : State} (grown : Grown above st st')
    (pre : above <+: rel) : Grown rel st st' :=
  ⟨grown.kept, fun m member => (grown.new m member).imp_right fun here => here.trans pre,
    grown.placed, grown.claimed⟩

theorem grown_andThen {rel : Path} {st : State} {r : Outcome} {next : State → Outcome}
    (first : Grown rel st r.1) (rest : ∀ st', r = (st', none) → Grown rel st' (next st').1) :
    Grown rel st (r.andThen next).1 := by
  obtain ⟨st', error⟩ := r
  cases error with
  | some e => exact first
  | none => exact first.trans (rest st' rfl)

theorem andThen_eq_ok {r : Outcome} {next : State → Outcome} (ok : (r.andThen next).2 = none) :
    ∃ st', r = (st', none) ∧ (next st').2 = none ∧ (r.andThen next).1 = (next st').1 := by
  obtain ⟨st', error⟩ := r
  cases error with
  | some e => cases ok
  | none => exact ⟨st', rfl, ok, rfl⟩

theorem grown_create (cfg : Setting) (st : State) (rel : Path) (node : Node) :
    Grown rel st (st.create cfg rel node).1 ∧
      ∀ place, (st.create cfg rel node).2 = some place →
        ⟨rel, place⟩ ∈ (st.create cfg rel node).1.made := by
  unfold State.create
  dsimp only
  split
  · exact ⟨.same rfl rfl rfl, fun _ none => by cases none⟩
  · split
    · exact ⟨.same rfl rfl rfl, fun _ none => by cases none⟩
    · next fs place _ =>
      refine ⟨⟨List.subset_append_left _ _, fun m member => ?_, rfl, rfl⟩, ?_⟩
      · rcases List.mem_append.mp member with before | here
        · exact .inl before
        · rw [List.mem_singleton.mp here]
          exact .inr (List.prefix_refl _)
      · rintro _ same
        obtain rfl := Option.some.inj same
        exact List.mem_append_right _ (List.mem_singleton_self _)

theorem grown_makeDirs (cfg : Setting) (st : State) (done rest : Path) :
    Grown (done ++ rest) st (st.makeDirs cfg done rest).1 := by
  induction rest generalizing st done with
  | nil => exact .same rfl rfl rfl
  | cons c rest ih =>
    have split : done ++ c :: rest = done ++ [c] ++ rest := by rw [List.append_assoc]; rfl
    unfold State.makeDirs
    rw [split]
    split
    · exact ih st (done ++ [c])
    · have made := (grown_create cfg st (done ++ [c]) .dir).1.above
        (List.prefix_append (done ++ [c]) rest)
      revert made
      cases st.create cfg (done ++ [c]) .dir with
      | mk st' place =>
        intro made
        cases place with
        | none => exact made
        | some place =>
          have listed : Grown (done ++ [c] ++ rest) st' { st' with dirs := (done ++ [c]) :: st'.dirs } :=
            .same rfl rfl rfl
          exact (made.trans listed).trans (ih _ (done ++ [c]))

theorem grown_makeDirsFor (cfg : Setting) (st : State) (rel : Path) (display : String) :
    Grown rel st (st.makeDirsFor cfg rel display).1 := by
  have made := grown_makeDirs cfg st [] rel
  unfold State.makeDirsFor
  revert made
  cases st.makeDirs cfg [] rel with
  | mk st' refused =>
    intro made
    cases refused <;> exact made

theorem grown_makeParent (cfg : Setting) (st : State) (rel : Path) (display : String) :
    Grown rel st (st.makeParent cfg rel display).1 := by
  unfold State.makeParent
  split
  · exact .same rfl rfl rfl
  · exact (grown_makeDirsFor cfg st rel.dropLast display).above (List.dropLast_prefix rel)

theorem grown_copyData (cfg : Setting) (rel : Path) (st : State) (entry : Entry) (place : Path) :
    Grown rel st (st.copyData cfg entry place).1 := by
  unfold State.copyData
  dsimp only
  split
  · exact .same rfl rfl rfl
  · split
    · exact .same rfl rfl rfl
    · split
      · exact .same rfl rfl rfl
      · split <;> exact .same rfl rfl rfl

theorem grown_setMode (cfg : Setting) (st : State) (rel : Path) (mode : ℕ) :
    Grown rel st (st.setMode cfg rel mode).1 := by
  unfold State.setMode
  dsimp only
  split
  · exact .same rfl rfl rfl
  · split <;> exact .same rfl rfl rfl

/-- A file adds itself and what is above it, and is there when all went well. -/
theorem grown_writeFile (cfg : Setting) (st : State) (entry : Entry) (rel : Path) (mode : ℕ) :
    Grown rel st (st.writeFile cfg entry rel mode).1 ∧
      ((st.writeFile cfg entry rel mode).2 = none →
        ∃ m ∈ (st.writeFile cfg entry rel mode).1.made, m.asked = rel) := by
  unfold State.writeFile
  split
  · exact ⟨.same rfl rfl rfl, fun ok => by cases ok⟩
  · constructor
    · refine grown_andThen (grown_makeParent cfg st rel entry.display) fun st₁ _ => ?_
      have made := (grown_create cfg st₁ rel (.file [] 0o644)).1
      revert made
      cases st₁.create cfg rel (.file [] 0o644) with
      | mk st₂ place =>
        intro made
        cases place with
        | none => exact made
        | some place =>
          exact made.trans (grown_andThen (grown_copyData cfg rel st₂ entry place) fun st₃ _ =>
            grown_setMode cfg st₃ rel mode)
    · intro ok
      obtain ⟨st₁, -, ok, same⟩ := andThen_eq_ok ok
      rw [same]
      have made := (grown_create cfg st₁ rel (.file [] 0o644)).2
      revert made ok
      cases st₁.create cfg rel (.file [] 0o644) with
      | mk st₂ place =>
        intro ok made
        cases place with
        | none => cases ok
        | some place =>
          obtain ⟨st₃, copied, -, same⟩ := andThen_eq_ok ok
          have data := grown_copyData cfg rel st₂ entry place
          rw [copied] at data
          rw [same]
          exact ⟨⟨rel, place⟩, (grown_setMode cfg st₃ rel mode).kept (data.kept (made place rfl)), rfl⟩

theorem grown_symlink (cfg : Setting) (st : State) (rel : Path) (target : RawPath) :
    Grown rel st (st.symlink cfg rel target).1 ∧
      ∀ place, (st.symlink cfg rel target).2 = some place →
        ⟨rel, place⟩ ∈ (st.symlink cfg rel target).1.made := by
  unfold State.symlink
  split
  · exact ⟨.same rfl rfl rfl, fun _ none => by cases none⟩
  · exact grown_create cfg st rel (.symlink target)

theorem grown_writeSymlink (cfg : Setting) (st : State) (rel : Path) (target : RawPath) (display : String) :
    Grown rel st (st.writeSymlink cfg rel target display).1 ∧
      ((st.writeSymlink cfg rel target display).2 = none →
        ∃ m ∈ (st.writeSymlink cfg rel target display).1.made, m.asked = rel) := by
  unfold State.writeSymlink
  split
  · exact ⟨.same rfl rfl rfl, fun ok => by cases ok⟩
  · split
    · exact ⟨.same rfl rfl rfl, fun ok => by cases ok⟩
    · constructor
      · refine grown_andThen (grown_makeParent cfg st rel display) fun st₁ _ => ?_
        have made := (grown_symlink cfg st₁ rel target).1
        revert made
        cases st₁.symlink cfg rel target with
        | mk st₂ place =>
          intro made
          cases place with
          | none => exact made
          | some place => exact made.trans (.same rfl rfl rfl)
      · intro ok
        obtain ⟨st₁, -, ok, same⟩ := andThen_eq_ok ok
        rw [same]
        have made := (grown_symlink cfg st₁ rel target).2
        revert made ok
        cases st₁.symlink cfg rel target with
        | mk st₂ place =>
          intro ok made
          cases place with
          | none => cases ok
          | some place => exact ⟨⟨rel, place⟩, made place rfl, rfl⟩

/-! ### What was accepted -/

/-- Each accepted path is there and claimed under a key of its own, and each object is at an accepted
path or above one. -/
structure Settled (cfg : Setting) (st : State) : Prop where
  there : ∀ rel ∈ st.placed, ∃ m ∈ st.made, m.asked = rel
  asked : ∀ m ∈ st.made, ∃ rel ∈ st.placed, m.asked <+: rel
  apart : (st.placed.map fun rel => cfg.nfc (lossy rel)).Nodup

theorem claim_eq_ok {st : State} {rel : Path} {display : String}
    (ok : (st.claim cfg rel display).2 = none) :
    st.claimed.lookup (cfg.nfc (lossy rel)) = none ∧
      (st.claim cfg rel display).1.placed = st.placed ++ [rel] ∧
      (st.claim cfg rel display).1.made = st.made := by
  unfold State.claim at ok ⊢
  dsimp only at ok ⊢
  cases free : st.claimed.lookup (cfg.nfc (lossy rel)) with
  | some prev =>
    rw [free] at ok
    cases ok
  | none => exact ⟨rfl, rfl, rfl⟩

/-- **One object placed.** What it claims and adds keeps the accepted paths settled. -/
theorem settled_placed {before : Fs} {st st₁ st' : State} {rel : Path} {display : String}
    (contained : Contained cfg before st) (settled : Settled cfg st)
    (claimed : st.claim cfg rel display = (st₁, none)) (grown : Grown rel st₁ st')
    (there : ∃ m ∈ st'.made, m.asked = rel) :
    Settled cfg st' ∧ st'.placed = st.placed ++ [rel] := by
  have ok : (st.claim cfg rel display).2 = none := by rw [claimed]
  have added := claim_eq_ok ok
  rw [claimed] at added
  obtain ⟨free, placed, made⟩ := added
  have paths : st'.placed = st.placed ++ [rel] := grown.placed.trans placed
  have more : st.made ⊆ st'.made := made ▸ grown.kept
  refine ⟨⟨fun q member => ?_, fun m member => ?_, ?_⟩, paths⟩
  · rw [paths] at member
    rcases List.mem_append.mp member with old | new
    · obtain ⟨m, member, asked⟩ := settled.there q old
      exact ⟨m, more member, asked⟩
    · rw [List.mem_singleton.mp new]
      exact there
  · rw [paths]
    rcases grown.new m member with old | above
    · rw [made] at old
      obtain ⟨q, member, pre⟩ := settled.asked m old
      exact ⟨q, List.mem_append_left _ member, pre⟩
    · exact ⟨rel, List.mem_append_right _ (List.mem_singleton_self _), above⟩
  · rw [paths, List.map_append, List.nodup_append]
    refine ⟨settled.apart, List.nodup_singleton _, fun key old key' new => ?_⟩
    rintro rfl
    obtain ⟨q, member, same⟩ := List.mem_map.mp old
    have known := contained.claimed q member
    rw [same, List.mem_singleton.mp new, free] at known
    cases known

theorem Settled.books {st st' : State} (settled : Settled cfg st) (made : st'.made = st.made)
    (placed : st'.placed = st.placed) : Settled cfg st' := by
  obtain ⟨there, asked, apart⟩ := settled
  constructor <;> simp only [made, placed] <;> assumption

theorem settled_place {before : Fs} {st : State} (contained : Contained cfg before st)
    (settled : Settled cfg st) (e : Entry) (mode : ℕ) {rel : Path} (some' : rel ≠ [])
    (ok : (st.place cfg e mode rel).2 = none) :
    Settled cfg (st.place cfg e mode rel).1 ∧
      (st.place cfg e mode rel).1.placed = st.placed ++ [rel] := by
  have file : ∀ next : State → Outcome, (next = fun st =>
      (st.writeFile cfg e rel mode).andThen fun st =>
        ({ st with out := { st.out with files := st.out.files + 1 } }, none)) →
      ((st.claim cfg rel e.display).andThen next).2 = none →
        Settled cfg ((st.claim cfg rel e.display).andThen next).1 ∧
          ((st.claim cfg rel e.display).andThen next).1.placed = st.placed ++ [rel] := by
    rintro _ rfl ok
    obtain ⟨st₁, claimed, ok, same⟩ := andThen_eq_ok ok
    rw [same]
    obtain ⟨st₂, written, -, same⟩ := andThen_eq_ok ok
    rw [same]
    obtain ⟨grown, there⟩ := grown_writeFile cfg st₁ e rel mode
    rw [written] at grown there
    have placed := settled_placed contained settled claimed grown (there rfl)
    exact ⟨placed.1.books rfl rfl, placed.2⟩
  unfold State.place at ok ⊢
  cases kind : e.kind <;> simp only [kind] at ok ⊢
  case regular => exact file _ rfl ok
  case continuous => exact file _ rfl ok
  case directory =>
    obtain ⟨st₁, claimed, ok, same⟩ := andThen_eq_ok ok
    rw [same]
    obtain ⟨st₂, made, -, same⟩ := andThen_eq_ok ok
    rw [same]
    have safe := safe_claim contained rel e.display
    have grown := grown_makeDirsFor cfg st₁ rel e.display
    rw [claimed] at safe
    obtain ⟨parents, chain⟩ := safe_makeDirsFor safe.contained rel e.display
    rw [made] at grown parents chain
    have listed : rel ∈ st₂.dirs := chain rfl rel some' (List.prefix_refl _)
    have placed := settled_placed contained settled claimed grown (parents.contained.dirs rel listed).2
    exact ⟨placed.1.books rfl rfl, placed.2⟩
  case symlink =>
    obtain ⟨st₁, claimed, ok, same⟩ := andThen_eq_ok ok
    rw [same]
    cases link : e.linkName with
    | none =>
      rw [link] at ok
      cases ok
    | some target =>
      cases target with
      | none =>
        rw [link] at ok
        cases ok
      | some target =>
        rw [link] at ok
        simp only at ok ⊢
        obtain ⟨st₂, written, -, same⟩ := andThen_eq_ok ok
        rw [same]
        obtain ⟨grown, there⟩ := grown_writeSymlink cfg st₁ rel target e.display
        rw [written] at grown there
        have placed := settled_placed contained settled claimed grown (there rfl)
        exact ⟨placed.1.books rfl rfl, placed.2⟩
  all_goals cases ok

/-- The path an entry is extracted at, if it is no more than the archive's root. -/
def entryPath (limits : Limits) (entry : Entry) : Option Path :=
  if entry.kind = .xGlobalHeader then none
  else entry.path.bind fun path =>
    match State.checkPath limits [] path with
    | .ok rel => rel
    | .error _ => none

/-- **One entry accepted** keeps the accepted paths settled, and its own is the next of them. -/
theorem settled_entry {before : Fs} {st : State} (contained : Contained cfg before st)
    (settled : Settled cfg st) (e : Entry) (ok : (st.entry cfg e).2 = none) :
    Settled cfg (st.entry cfg e).1 ∧
      (st.entry cfg e).1.placed = st.placed ++ (entryPath cfg.limits e).toList := by
  unfold State.entry at ok ⊢
  unfold entryPath
  dsimp only at ok ⊢
  by_cases header : e.kind = .xGlobalHeader
  · rw [if_pos header, if_pos header]
    exact ⟨settled, (List.append_nil _).symm⟩
  · rw [if_neg header] at ok ⊢
    rw [if_neg header]
    split at ok
    · cases ok
    · next few =>
      rw [if_neg few]
      split at ok
      · cases ok
      · next plain =>
        rw [if_neg plain]
        cases raw : e.path with
        | none =>
          rw [raw] at ok
          cases ok
        | some path =>
          rw [raw] at ok
          simp only at ok ⊢
          rw [Option.bind_some]
          cases checked : State.checkPath cfg.limits [] path with
          | error reason =>
            rw [checked] at ok
            cases ok
          | ok found =>
            rw [checked] at ok
            cases found with
            | none => exact ⟨settled, (List.append_nil _).symm⟩
            | some rel =>
              simp only at ok ⊢
              split at ok
              · cases ok
              · exact settled_place contained settled e _ (checkPath_ne_nil checked) ok

/-! ### Whole archives -/

/-- The paths of an archive's entries. -/
def entryPaths (limits : Limits) (archive : List (Except ExtractError Entry)) : List Path :=
  archive.flatMap fun
    | .ok e => (entryPath limits e).toList
    | .error _ => []

theorem settled_entries {before : Fs} {st : State} (contained : Contained cfg before st)
    (settled : Settled cfg st) (archive : List (Except ExtractError Entry))
    (ok : (st.entries cfg archive).2 = none) :
    Settled cfg (st.entries cfg archive).1 ∧
      (st.entries cfg archive).1.placed = st.placed ++ entryPaths cfg.limits archive := by
  induction archive generalizing st with
  | nil => exact ⟨settled, (List.append_nil _).symm⟩
  | cons item archive ih =>
    cases item with
    | error e => cases ok
    | ok e =>
      unfold State.entries at ok ⊢
      obtain ⟨st₁, first, ok, same⟩ := andThen_eq_ok ok
      rw [same]
      have safe := safe_entry contained e
      have next := settled_entry contained settled e (by rw [first])
      rw [first] at safe next
      obtain ⟨all, paths⟩ := ih safe.contained next.1 ok
      refine ⟨all, paths.trans ?_⟩
      rw [next.2, List.append_assoc]
      rfl

theorem lookup_below_empty {fs : Fs} {dest : Path} (empty : fs.readDir dest = some []) {q : Path}
    (below : q ≠ []) : fs.lookup (dest ++ q) = none := by
  induction q using List.reverseRecOn with
  | nil => exact absurd rfl below
  | append_singleton q c ih =>
    rw [← List.append_assoc]
    cases found : fs.lookup (dest ++ q ++ [c]) with
    | none => rfl
    | some node =>
      have dir := Fs.parent_of_lookup found
      by_cases top : q = []
      · subst top
        unfold Fs.readDir at empty
        rw [List.append_nil] at found dir
        rw [if_pos dir] at empty
        unfold Fs.lookup at found
        rw [if_neg (by simp)] at found
        have key : dest ++ [c] ∈ fs.nodes.keys :=
          AList.mem_keys.mp (AList.lookup_isSome.mp (Option.isSome_iff_exists.mpr ⟨node, found⟩))
        have listed := List.filterMap_eq_nil_iff.mp (Option.some.inj empty) _ key
        rw [if_pos List.dropLast_concat, List.getLast?_concat] at listed
        cases listed
      · rw [ih top] at dir
        cases dir

/-- A path of the extracted tree. -/
def InTree (cfg : Setting) (st : State) (q : Path) : Prop :=
  q ≠ [] ∧ st.fs.lookup (cfg.dest ++ q) ≠ none

/-- Each component normalized. -/
def normalized (nfc : String → String) (path : Path) : Path :=
  path.map fun
    | .text name => .text (nfc name)
    | .raw bytes => .raw bytes

/-- No path above one of these is another spelling of one of these, or of a path above it. -/
def SpelledAlike (nfc : String → String) (paths : List Path) : Prop :=
  ∀ p ∈ paths, ∀ q ∈ paths, ∀ above other, above ≠ [] → above <+: p → above ≠ p → other <+: q →
    normalized nfc above = normalized nfc other → above = other

theorem key_of_normalized {nfc : String → String}
    (componentwise : ∀ names, nfc ("/".intercalate names) = "/".intercalate (names.map nfc))
    {p q : Path} (same : normalized nfc p = normalized nfc q) : nfc (lossy p) = nfc (lossy q) := by
  have names : ∀ path, (path.map OsStr.lossy).map nfc = (normalized nfc path).map fun
      | .text name => name
      | .raw bytes => nfc (OsStr.lossy (.raw bytes)) := by
    intro path
    unfold normalized
    rw [List.map_map, List.map_map]
    refine List.map_congr_left fun c _ => ?_
    cases c <;> rfl
  unfold lossy
  rw [componentwise, componentwise, names p, names q, same]

/-- **What an extracted tree holds**: its entries' paths, and what is above them. -/
theorem inTree_iff {cfg : Setting} {fs : Fs} {trouble : List Bool}
    {archive : List (Except ExtractError Entry)}
    (accepted : (extractInto cfg fs trouble archive).2 = none) {q : Path} :
    Settled cfg (extractInto cfg fs trouble archive).1 ∧
      (extractInto cfg fs trouble archive).1.placed = entryPaths cfg.limits archive ∧
      (InTree cfg (extractInto cfg fs trouble archive).1 q ↔
        q ≠ [] ∧ ∃ p ∈ entryPaths cfg.limits archive, q <+: p) := by
  unfold extractInto at accepted ⊢
  dsimp only at accepted ⊢
  cases empty : fs.readDir cfg.dest with
  | none =>
    rw [empty] at accepted
    cases accepted
  | some names =>
    cases names with
    | cons name names =>
      rw [empty] at accepted
      cases accepted
    | nil =>
      rw [empty] at accepted
      simp only at accepted ⊢
      have start := contained_start cfg fs trouble
      have none : Settled cfg { fs := fs, trouble := trouble } :=
        ⟨fun _ member => (by cases member), fun _ member => (by cases member), List.nodup_nil⟩
      obtain ⟨settled, paths⟩ := settled_entries start none archive accepted
      have contained := (safe_entries start archive).contained
      rw [List.nil_append] at paths
      refine ⟨settled, paths, ?_⟩
      rw [← paths]
      constructor
      · rintro ⟨some', here⟩
        obtain ⟨m, member, place⟩ := contained.new _ (lookup_below_empty empty some') here
        obtain ⟨p, placed, pre⟩ := settled.asked m member
        rw [(contained.made m member).2.1] at place
        exact ⟨some', p, placed, List.append_cancel_left place ▸ pre⟩
      · rintro ⟨some', p, placed, pre⟩
        refine ⟨some', ?_⟩
        obtain ⟨m, member, rfl⟩ := settled.there p placed
        obtain ⟨-, place, -, is, chain⟩ := contained.made m member
        by_cases whole : q = m.asked
        · rw [whole, ← place]
          exact is
        · obtain ⟨parent, name, same⟩ : ∃ parent name, m.asked = parent ++ [name] := by
            obtain ⟨rest, joined⟩ := pre
            have some'' : m.asked ≠ [] := (contained.made m member).1
            exact ⟨m.asked.dropLast, m.asked.getLast some'',
              (List.dropLast_append_getLast some'').symm⟩
          rw [same, List.dropLast_concat] at chain
          rw [same] at pre whole
          have above : q <+: parent := (List.prefix_concat_iff.mp pre).resolve_left whole
          rw [(contained.dirs q (chain q some' above)).1]
          exact Option.some_ne_none _

/-- **Normalization collisions in an extracted tree.** An accepted archive leaves no two paths of one
normal form, files, links and directories all taken together, exactly when its entries spell alike
what lies above them. -/
theorem no_collision_iff (cfg : Setting) (fs : Fs) (trouble : List Bool)
    (archive : List (Except ExtractError Entry))
    (componentwise : ∀ names, cfg.nfc ("/".intercalate names) = "/".intercalate (names.map cfg.nfc))
    (accepted : (extractInto cfg fs trouble archive).2 = none) :
    (∀ p q, InTree cfg (extractInto cfg fs trouble archive).1 p →
      InTree cfg (extractInto cfg fs trouble archive).1 q →
        normalized cfg.nfc p = normalized cfg.nfc q → p = q) ↔
    SpelledAlike cfg.nfc (entryPaths cfg.limits archive) := by
  constructor
  · intro single p p' q q' above other some' pre _ pre' same
    have some'' : other ≠ [] := by
      rintro rfl
      exact some' (List.map_eq_nil_iff.mp same)
    exact single above other ((inTree_iff accepted).2.2.mpr ⟨some', p, p', pre⟩)
      ((inTree_iff accepted).2.2.mpr ⟨some'', q, q', pre'⟩) same
  · intro alike p q inside inside' same
    obtain ⟨some', p', entry, pre⟩ := (inTree_iff accepted).2.2.mp inside
    obtain ⟨some'', q', entry', pre'⟩ := (inTree_iff accepted).2.2.mp inside'
    by_cases whole : p = p'
    · by_cases whole' : q = q'
      · -- Both are entries: each has claimed a key of its own.
        subst whole whole'
        obtain ⟨settled, placed, -⟩ := inTree_iff (q := p) accepted
        have apart := settled.apart
        rw [placed] at apart
        exact List.inj_on_of_nodup_map apart entry entry' (key_of_normalized componentwise same)
      · exact (alike q' entry' p' entry q p some'' pre' whole' pre same.symm).symm
    · exact alike p' entry q' entry' p q some' pre whole pre' same

/-- Normalization, as far as the Kelvin sign goes: it is another spelling of the letter. -/
def kelvin (name : String) : String :=
  String.ofList (name.toList.map fun c => if c = Char.ofNat 0x212A then 'K' else c)

theorem kelvin_append (s t : String) : kelvin (s ++ t) = kelvin s ++ kelvin t := by
  unfold kelvin
  rw [String.toList_append, List.map_append, String.ofList_append]

theorem kelvin_componentwise (names : List String) :
    kelvin ("/".intercalate names) = "/".intercalate (names.map kelvin) := by
  induction names with
  | nil => rfl
  | cons name names ih =>
    by_cases last : names = []
    · subst last
      simp
    · rw [String.intercalate_cons_of_ne_nil last, kelvin_append, kelvin_append, ih, List.map_cons,
        String.intercalate_cons_of_ne_nil (by simpa using last)]
      rfl

theorem kelvin_idempotent (name : String) : kelvin (kelvin name) = kelvin name := by
  unfold kelvin
  rw [String.toList_ofList, List.map_map]
  congr 1
  refine List.map_congr_left fun c _ => ?_
  by_cases sign : c = Char.ofNat 0x212A
  · subst sign
    rfl
  · simp only [Function.comp, if_neg sign]

def kelvinSetting : Setting :=
  { dest := [], limits := {}, nfc := kelvin, patience := 8 }

def emptyFs : Fs where
  nodes := ∅
  nested _ _ _ found := by cases found

/-- A file in a directory. -/
def fileIn (dir name : String) : Entry where
  kind := .regular
  display := dir ++ "/" ++ name
  path := some [.normal (.text dir), .normal (.text name)]

theorem prefix_pair {c d : OsStr} {path : Path} (pre : path <+: [c, d]) :
    path = [] ∨ path = [c] ∨ path = [c, d] := by
  rcases List.prefix_cons_iff.mp pre with none | ⟨t, rfl, rest⟩
  · exact .inl none
  · rcases List.prefix_cons_iff.mp rest with rfl | ⟨t, rfl, last⟩
    · exact .inr (.inl rfl)
    · rw [List.prefix_nil.mp last]
      exact .inr (.inr rfl)

theorem no_collision_plain :
    (extractInto kelvinSetting emptyFs []
        [.ok (fileIn "K" "a"), .ok (fileIn "K" "b")]).2 = none ∧
      ∀ p q, InTree kelvinSetting (extractInto kelvinSetting emptyFs []
          [.ok (fileIn "K" "a"), .ok (fileIn "K" "b")]).1 p →
        InTree kelvinSetting (extractInto kelvinSetting emptyFs []
          [.ok (fileIn "K" "a"), .ok (fileIn "K" "b")]).1 q →
        normalized kelvin p = normalized kelvin q → p = q := by
  refine ⟨by decide +kernel, (no_collision_iff kelvinSetting emptyFs []
    [.ok (fileIn "K" "a"), .ok (fileIn "K" "b")] kelvin_componentwise (by decide +kernel)).mpr ?_⟩
  have paths : entryPaths kelvinSetting.limits [.ok (fileIn "K" "a"), .ok (fileIn "K" "b")] =
      [[.text "K", .text "a"], [.text "K", .text "b"]] := by
    decide +kernel
  rw [paths]
  have pair : ∀ p ∈ ([[.text "K", .text "a"], [.text "K", .text "b"]] : List Path),
      ∃ name, p = [.text "K", .text name] := by
    simp
  intro p entry q entry' above other some' pre whole pre' same
  obtain ⟨name, rfl⟩ := pair p entry
  obtain ⟨name', rfl⟩ := pair q entry'
  obtain rfl := ((prefix_pair pre).resolve_left some').resolve_right whole
  have length : 1 = other.length := by simpa [normalized] using congrArg List.length same
  rcases prefix_pair pre' with rfl | rfl | rfl
  · cases length
  · rfl
  · cases length

/-- One directory spelled with the letter and with the sign: both come to be. -/
theorem spelled_twice_collide :
    (∀ names, kelvin ("/".intercalate names) = "/".intercalate (names.map kelvin)) ∧
      (∀ name, kelvin (kelvin name) = kelvin name) ∧
      (extractInto kelvinSetting emptyFs []
        [.ok (fileIn "K" "a"), .ok (fileIn "\u212A" "b")]).2 = none ∧
      InTree kelvinSetting (extractInto kelvinSetting emptyFs []
        [.ok (fileIn "K" "a"), .ok (fileIn "\u212A" "b")]).1 [.text "K"] ∧
      InTree kelvinSetting (extractInto kelvinSetting emptyFs []
        [.ok (fileIn "K" "a"), .ok (fileIn "\u212A" "b")]).1 [.text "\u212A"] ∧
      normalized kelvin [.text "K"] = normalized kelvin [.text "\u212A"] ∧
      ([.text "K"] : Path) ≠ [.text "\u212A"] := by
  refine ⟨kelvin_componentwise, kelvin_idempotent, by decide +kernel, ⟨by decide, ?_⟩,
    ⟨by decide, ?_⟩, by decide +kernel, by decide +kernel⟩
  · decide +kernel
  · decide +kernel

end HullCi.Fetch
