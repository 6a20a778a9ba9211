/-
**Extraction in any order.**

The reader accepts or refuses an entry by what it remembers of the ones before. Each pair of entries
that cannot stand together is refused whichever comes first, though not by the same check, and what
is left is a set of objects and sums.

* `Item` — what one entry asks for.
* `Good` — what all of them must satisfy together, in any order.
* `room_iff_apart` — there is room for one more exactly when it can stand beside each of the others.
* `entry_exact` — the reader accepts an entry exactly when the items stay good.
* `extraction_permuted` — the order does not matter.
-/

import HullCi.Fetch.Bounds
import HullCi.Fetch.Links
import HullCi.Fetch.Placing
import Mathlib.Data.List.Perm.Basic

namespace HullCi.Fetch

open HullCi.Base

variable {cfg : Setting} {st : State}

/-! ### What all entries ask for -/

/-- An object asked for, at its path. -/
structure Item where
  rel : Path
  node : Node

/-- The object an accepted entry asks for. -/
structure Asks (limits : Limits) (e : Entry) (i : Item) : Prop where
  plain : e.mode.getD 0o644 &&& 0o7000 = 0
  checked : e.rel limits = some i.rel
  yields : Yields limits e i.rel i.node

namespace Item

def key (cfg : Setting) (i : Item) : String :=
  cfg.nfc (lossy i.rel)

def size (i : Item) : ℕ :=
  i.node.size

/-- An object brings itself, and the directories above it. -/
inductive Puts (i : Item) : Path → Node → Prop
  | above {q : Path} (pre : q <+: i.rel) (other : q ≠ i.rel) : Puts i q .dir
  | here : Puts i i.rel i.node

theorem Puts.below {i : Item} {q : Path} {node : Node} (puts : i.Puts q node) : q <+: i.rel := by
  cases puts with
  | above pre => exact pre
  | here => exact List.prefix_refl _

/-- Neither is below the other, unless that is a directory. -/
def Apart (i j : Item) : Prop :=
  (i.node ≠ .dir → ¬ i.rel <+: j.rel) ∧ (j.node ≠ .dir → ¬ j.rel <+: i.rel)

theorem Apart.symm {i j : Item} (apart : Apart i j) : Apart j i :=
  ⟨apart.2, apart.1⟩

end Item

/-- The objects can stand together, and are within the limits. -/
structure Good (cfg : Setting) (items : List Item) : Prop where
  few : items.length ≤ cfg.limits.maxEntries
  near : ∀ i ∈ items, Near cfg i.rel
  keys : (items.map (Item.key cfg)).Nodup
  apart : items.Pairwise Item.Apart
  bytes : (items.map Item.size).sum ≤ cfg.limits.maxTotalBytes

theorem Good.perm {items items' : List Item} (good : Good cfg items) (perm : items.Perm items') :
    Good cfg items' where
  few := perm.length_eq ▸ good.few
  near i member := good.near i (perm.symm.subset member)
  keys := (perm.map _).nodup good.keys
  apart := (perm.pairwise_iff fun apart => apart.symm).mp good.apart
  bytes := (perm.map Item.size).sum_eq ▸ good.bytes

theorem Good.left {items more : List Item} (good : Good cfg (items ++ more)) : Good cfg items where
  few := (List.sublist_append_left items more).length_le.trans good.few
  near i member := good.near i (List.mem_append_left _ member)
  keys := (((List.sublist_append_left items more).map _).nodup good.keys)
  apart := good.apart.sublist (List.sublist_append_left items more)
  bytes := by
    have bytes := good.bytes
    rw [List.map_append, List.sum_append] at bytes
    omega

theorem good_snoc {items : List Item} {i : Item} :
    Good cfg (items ++ [i]) ↔
      Good cfg items ∧ items.length < cfg.limits.maxEntries ∧ Near cfg i.rel ∧
        i.key cfg ∉ items.map (Item.key cfg) ∧ (∀ j ∈ items, j.Apart i) ∧
        (items.map Item.size).sum + i.size ≤ cfg.limits.maxTotalBytes := by
  constructor
  · rintro ⟨few, near, keys, apart, bytes⟩
    rw [List.length_append, List.length_singleton] at few
    rw [List.map_append, List.map_singleton, List.nodup_append] at keys
    rw [List.map_append, List.map_singleton, List.sum_append, List.sum_singleton] at bytes
    obtain ⟨before, -, across⟩ := List.pairwise_append.mp apart
    refine ⟨⟨by omega, fun j member => near j (List.mem_append_left _ member), keys.1, before,
      by omega⟩, by omega, near i (List.mem_append_right _ (List.mem_singleton_self _)),
      fun member => ?_, fun j member => ?_, bytes⟩
    · exact keys.2.2 _ member _ (List.mem_singleton_self _) rfl
    · exact across j member i (List.mem_singleton_self _)
  · rintro ⟨⟨few, nears, keys, apart, bytes⟩, more, near, fresh, across, room⟩
    refine ⟨?_, fun j member => ?_, ?_, ?_, ?_⟩
    · rw [List.length_append, List.length_singleton]
      omega
    · rcases List.mem_append.mp member with old | new
      · exact nears j old
      · rw [List.mem_singleton.mp new]
        exact near
    · rw [List.map_append, List.map_singleton, List.nodup_append]
      refine ⟨keys, List.nodup_singleton _, fun key member key' new => ?_⟩
      rw [List.mem_singleton.mp new]
      rintro rfl
      exact fresh member
    · refine List.pairwise_append.mpr ⟨apart, List.pairwise_singleton _ _, fun j member k new => ?_⟩
      rw [List.mem_singleton.mp new]
      exact across j member
    · rw [List.map_append, List.map_singleton, List.sum_append, List.sum_singleton]
      exact room

/-- What the items count up to. -/
def tally (items : List Item) : Extracted :=
  items.foldl (fun out i => countOne { out with bytes := out.bytes + i.size } i.node) {}

/-- The objects below the destination, the claims and the counts are those of the items. -/
structure Reflects (cfg : Setting) (items : List Item) (st : State) : Prop where
  coherent : Coherent cfg st
  paths : ∀ i ∈ items, i.rel ≠ []
  lookup : ∀ q node, q ≠ [] →
    (st.fs.lookup (cfg.dest ++ q) = some node ↔ ∃ i ∈ items, i.Puts q node)
  claimed : ∀ key, st.claimed.lookup key = none ↔ key ∉ items.map (Item.key cfg)
  symlinks : ∀ q ∈ st.symlinks, ∃ target, st.fs.lookup (cfg.dest ++ q) = some (.symlink target)
  out : st.out = tally items
  stopped : cfg.limits.stop = 0 → st.out.bytes = 0

theorem tally_snoc (items : List Item) (i : Item) :
    tally (items ++ [i]) =
      countOne { tally items with bytes := (tally items).bytes + i.size } i.node := by
  unfold tally
  rw [List.foldl_append]
  rfl

theorem countOne_count (out : Extracted) (node : Node) :
    (countOne out node).count = out.count + 1 := by
  cases node <;> simp only [countOne, Extracted.count] <;> omega

theorem countOne_bytes (out : Extracted) (node : Node) : (countOne out node).bytes = out.bytes := by
  cases node <;> rfl

theorem tally_count (items : List Item) : (tally items).count = items.length := by
  induction items using List.reverseRecOn with
  | nil => rfl
  | append_singleton items i ih =>
    rw [tally_snoc, countOne_count, List.length_append, List.length_singleton, ← ih]
    rfl

theorem tally_bytes (items : List Item) : (tally items).bytes = (items.map Item.size).sum := by
  induction items using List.reverseRecOn with
  | nil => rfl
  | append_singleton items i ih =>
    rw [tally_snoc, countOne_bytes, List.map_append, List.sum_append, List.map_singleton,
      List.sum_singleton, ← ih]

theorem tally_perm {items items' : List Item} (perm : items.Perm items') :
    tally items = tally items' := by
  unfold tally
  refine perm.foldl_eq' (fun i _ j _ out => ?_) _
  have sum : out.bytes + i.size + j.size = out.bytes + j.size + i.size := by omega
  cases i.node <;> cases j.node <;> simp only [countOne, sum]

theorem Reflects.count {items : List Item} (reflects : Reflects cfg items st) :
    st.out.files + st.out.dirs + st.out.symlinks = items.length := by
  rw [reflects.out, ← tally_count]
  rfl

theorem Reflects.paid {items : List Item} (reflects : Reflects cfg items st)
    (good : Good cfg items) : Paid cfg st where
  within := by
    rw [reflects.out, tally_bytes]
    exact good.bytes
  stopped := reflects.stopped

/-- For an object not claimed yet there is room exactly when it can stand beside the others. -/
theorem room_iff_apart {items : List Item} (reflects : Reflects cfg items st)
    (good : Good cfg items) {i : Item} (some' : i.rel ≠ [])
    (fresh : i.key cfg ∉ items.map (Item.key cfg)) :
    Room cfg st i.rel i.node ↔ Near cfg i.rel ∧ ∀ j ∈ items, j.Apart i := by
  have differs : ∀ j ∈ items, j.rel ≠ i.rel := fun j member same =>
    fresh (List.mem_map.mpr ⟨j, member, by unfold Item.key; rw [same]⟩)
  constructor
  · intro room
    refine ⟨?_, fun j member => ⟨fun other pre => ?_, fun other pre => ?_⟩⟩
    · rcases room i.rel (List.prefix_refl _) with ⟨-, near⟩ | ⟨dir, -⟩
      · exact near
      · obtain ⟨j, member, puts⟩ := (reflects.lookup i.rel .dir some').mp dir
        exact (good.near j member).above puts.below
    · have there := (reflects.lookup j.rel j.node (reflects.paths j member)).mpr
        ⟨j, member, .here⟩
      rcases room j.rel pre with ⟨none, -⟩ | ⟨dir, -⟩
      · rw [there] at none
        cases none
      · rw [there] at dir
        exact other (Option.some.inj dir)
    · have there := (reflects.lookup i.rel .dir some').mpr
        ⟨j, member, .above pre (differs j member).symm⟩
      rcases room i.rel (List.prefix_refl _) with ⟨none, -⟩ | ⟨-, dir⟩
      · rw [there] at none
        cases none
      · exact other (dir rfl)
  · rintro ⟨near, apart⟩ q pre
    by_cases top : q = []
    · rw [top, List.append_nil]
      exact .inr ⟨reflects.coherent.root, fun same => absurd same.symm some'⟩
    cases there : st.fs.lookup (cfg.dest ++ q) with
    | none => exact .inl ⟨rfl, near.above pre⟩
    | some node =>
      obtain ⟨j, member, puts⟩ := (reflects.lookup q node top).mp there
      right
      cases puts with
      | above below other =>
        refine ⟨rfl, fun same => ?_⟩
        by_contra notDir
        exact (apart j member).2 notDir (same ▸ below)
      | here =>
        refine ⟨?_, fun same => absurd same (differs j member)⟩
        by_contra notDir
        exact (apart j member).1 (fun dir => notDir (by rw [dir])) pre

theorem ancestors_clear {done rest : Path}
    (clear : ∀ q, q <+: done ++ rest → q ∉ st.symlinks) :
    st.checkSymlinkAncestors done rest = none := by
  induction rest generalizing done with
  | nil => rfl
  | cons c rest ih =>
    have split' : done ++ c :: rest = done ++ [c] ++ rest := by simp
    rw [split'] at clear
    unfold State.checkSymlinkAncestors
    rw [if_neg (clear _ (List.prefix_append _ _))]
    exact ih clear

/-- **One object more.** -/
theorem reflects_placed {items : List Item} (reflects : Reflects cfg items st) {i : Item}
    (some' : i.rel ≠ []) (room : Room cfg st i.rel i.node) {display : String} {st' : State}
    (placed : Placed cfg (claimedBy cfg st i.rel display) i.rel i.node st')
    (stopped : cfg.limits.stop = 0 → i.size = 0) :
    Reflects cfg (items ++ [i]) { st' with out := countOne st'.out i.node } := by
  have lookup : ∀ q node, q ≠ [] → (st'.fs.lookup (cfg.dest ++ q) = some node ↔
      st.fs.lookup (cfg.dest ++ q) = some node ∨ i.Puts q node) := by
    intro q node top
    rw [placed.lookup]
    show (if q = i.rel then some i.node else if q ≠ [] ∧ q <+: i.rel then some Node.dir
      else st.fs.lookup (cfg.dest ++ q)) = some node ↔ _
    by_cases here : q = i.rel
    · subst here
      rw [if_pos rfl]
      constructor
      · intro same
        obtain rfl := Option.some.inj same
        exact .inr .here
      · rintro (old | puts)
        · rcases room i.rel (List.prefix_refl _) with ⟨none, -⟩ | ⟨dir, only⟩
          · rw [none] at old
            cases old
          · rw [dir] at old
            rw [only rfl, old]
        · cases puts with
          | above pre other => exact absurd rfl other
          | here => rfl
    · rw [if_neg here]
      by_cases above : q <+: i.rel
      · rw [if_pos ⟨top, above⟩]
        constructor
        · intro same
          obtain rfl := Option.some.inj same
          exact .inr (.above above here)
        · rintro (old | puts)
          · rcases room q above with ⟨none, -⟩ | ⟨dir, -⟩
            · rw [none] at old
              cases old
            · rw [← old, dir]
          · cases puts with
            | above => rfl
            | here => exact absurd rfl here
      · rw [if_neg fun both => above both.2]
        refine ⟨.inl, ?_⟩
        rintro (old | puts)
        · exact old
        · cases puts with
          | above pre => exact absurd pre above
          | here => exact absurd rfl here
  refine ⟨⟨placed.coherent.calm, placed.coherent.root, placed.coherent.listed⟩,
    fun j member => ?_, fun q node top => ?_, fun key => ?_, fun q member => ?_, ?_, ?_⟩
  · rcases List.mem_append.mp member with old | new
    · exact reflects.paths j old
    · rw [List.mem_singleton.mp new]
      exact some'
  · refine (lookup q node top).trans ?_
    rw [reflects.lookup q node top]
    simp only [List.mem_append, List.mem_singleton]
    constructor
    · rintro (⟨j, member, puts⟩ | puts)
      · exact ⟨j, .inl member, puts⟩
      · exact ⟨i, .inr rfl, puts⟩
    · rintro ⟨j, member | rfl, puts⟩
      · exact .inl ⟨j, member, puts⟩
      · exact .inr puts
  · show st'.claimed.lookup key = none ↔ _
    rw [placed.claimed]
    show (st.claimed.insert (i.key cfg) display).lookup key = none ↔ _
    rw [Table.lookup_insert, List.map_append, List.map_singleton, List.mem_append,
      List.mem_singleton, not_or, ← reflects.claimed]
    by_cases same : key = i.key cfg
    · rw [if_pos same]
      simp [same]
    · rw [if_neg same]
      simp [same]
  · have listed : ∀ q ∈ st.symlinks, q ≠ [] →
        ∃ target, st'.fs.lookup (cfg.dest ++ q) = some (.symlink target) := by
      intro q member top
      obtain ⟨target, there⟩ := reflects.symlinks q member
      exact ⟨target, (lookup q _ top).mpr (.inl there)⟩
    have named : ∀ q ∈ st.symlinks, q ≠ [] := by
      rintro q member rfl
      obtain ⟨target, there⟩ := reflects.symlinks [] member
      rw [List.append_nil, reflects.coherent.root] at there
      cases there
    change q ∈ st'.symlinks at member
    rw [placed.symlinks] at member
    split at member
    · rename_i link
      rcases List.mem_cons.mp member with rfl | old
      · have there := (lookup i.rel i.node some').mpr (.inr .here)
        cases node : i.node with
        | symlink target => exact ⟨target, by rw [← node]; exact there⟩
        | dir | file =>
          rw [node] at link
          cases link
      · exact listed q old (named q old)
    · exact listed q member (named q member)
  · show countOne st'.out i.node = _
    rw [tally_snoc, placed.out, ← reflects.out]
    rfl
  · intro none
    show (countOne st'.out i.node).bytes = 0
    rw [countOne_bytes, placed.out]
    show st.out.bytes + i.size = 0
    rw [reflects.stopped none, stopped none]


/-! ### Entry by entry -/

/-- An entry of its own: neither a global header nor the archive's root. -/
structure Entry.Own (limits : Limits) (e : Entry) : Prop where
  header : e.kind ≠ .xGlobalHeader
  root : ∀ path, e.path = some path → State.checkPath limits [] path ≠ .ok none

theorem rel_iff {limits : Limits} {e : Entry} {rel : Path} :
    e.rel limits = some rel ↔ e.kind ≠ .xGlobalHeader ∧
      ∃ path, e.path = some path ∧ State.checkPath limits [] path = .ok (some rel) := by
  unfold Entry.rel
  by_cases header : e.kind = .xGlobalHeader
  · simp [header]
  · rw [if_neg header]
    cases e.path with
    | none => simp
    | some path =>
      cases checked : State.checkPath limits [] path with
      | error reason => simp [checked]
      | ok rel' => simp [checked, header]

theorem entry_accepts {items : List Item} (reflects : Reflects cfg items st) {e : Entry}
    (own : e.Own cfg.limits) (accepted : (st.entry cfg e).2 = none) :
    items.length < cfg.limits.maxEntries ∧ e.mode.getD 0o644 &&& 0o7000 = 0 ∧
      ∃ rel, e.rel cfg.limits = some rel ∧
        (st.place cfg e (e.mode.getD 0o644) rel).2 = none := by
  unfold State.entry at accepted
  rw [if_neg own.header, reflects.count] at accepted
  dsimp only at accepted
  split at accepted
  · cases accepted
  · rename_i few
    split at accepted
    · cases accepted
    · rename_i plain
      split at accepted
      · cases accepted
      · rename_i path named'
        split at accepted
        · cases accepted
        · rename_i root
          exact absurd root (own.root path named')
        · rename_i rel checked
          split at accepted
          · cases accepted
          · exact ⟨Nat.lt_of_not_le few, not_not.mp plain, rel,
              rel_iff.mpr ⟨own.header, path, named', checked⟩, accepted⟩

/-- **The reader accepts an entry exactly when the objects with its own can stand together.** -/
theorem entry_exact {items : List Item} (reflects : Reflects cfg items st)
    (good : Good cfg items) (fit : cfg.limits.Fit) {e : Entry} (own : e.Own cfg.limits) :
    (∀ i, Asks cfg.limits e i → Good cfg (items ++ [i]) →
      ∃ st', st.entry cfg e = (st', none) ∧ Reflects cfg (items ++ [i]) st') ∧
    ((st.entry cfg e).2 = none → ∃ i, Asks cfg.limits e i ∧ Good cfg (items ++ [i])) := by
  have paid := reflects.paid good
  have bytes : st.out.bytes = (items.map Item.size).sum := by rw [reflects.out, tally_bytes]
  have named : ∀ {rel}, e.rel cfg.limits = some rel → rel ≠ [] := by
    intro rel checked
    obtain ⟨-, path, -, checked⟩ := rel_iff.mp checked
    exact checkPath_ne_nil checked
  constructor
  · rintro ⟨rel, node⟩ ⟨plain, checked, yields⟩ together
    have some' := named checked
    obtain ⟨-, more, near, fresh, apart, fits⟩ := good_snoc.mp together
    have room := (room_iff_apart reflects good some' fresh).mpr ⟨near, apart⟩
    have free := (reflects.claimed _).mpr fresh
    obtain ⟨st', placed, done⟩ := (place_exact reflects.coherent fit paid some').1 node yields
      free (by rw [bytes]; exact fits) room
    have stopped : cfg.limits.stop = 0 → node.size = 0 := by
      intro none
      cases yields with
      | dir | link => rfl
      | file =>
        show (e.data.take cfg.limits.stop).length = 0
        rw [none]
        rfl
    refine ⟨_, ?_, reflects_placed reflects some' room placed stopped⟩
    have clear : st.checkSymlinkAncestors [] rel = none := by
      refine ancestors_clear fun q pre member => ?_
      obtain ⟨target, there⟩ := reflects.symlinks q member
      rcases room q pre with ⟨none, -⟩ | ⟨dir, -⟩
      · rw [there] at none
        cases none
      · rw [there] at dir
        cases dir
    obtain ⟨-, path, named', checked⟩ := rel_iff.mp checked
    unfold State.entry
    rw [if_neg own.header, reflects.count, if_neg (Nat.not_le_of_lt more)]
    dsimp only
    rw [if_neg (not_not.mpr plain), named']
    dsimp only
    rw [checked]
    dsimp only
    rw [clear]
    exact done
  · intro accepted
    obtain ⟨more, plain, rel, checked, placed⟩ := entry_accepts reflects own accepted
    have some' := named checked
    obtain ⟨node, yields, free, fits, room⟩ :=
      (place_exact reflects.coherent fit paid some').2 placed
    have fresh := (reflects.claimed _).mp free
    rw [bytes] at fits
    obtain ⟨near, apart⟩ :=
      (room_iff_apart reflects good (i := ⟨rel, node⟩) some' fresh).mp room
    exact ⟨⟨rel, node⟩, ⟨plain, checked, yields⟩,
      good_snoc.mpr ⟨good, more, near, fresh, apart, fits⟩⟩

/-- **All entries.** -/
theorem entries_exact {items : List Item} (reflects : Reflects cfg items st)
    (good : Good cfg items) (fit : cfg.limits.Fit) {archive : List Entry}
    (own : ∀ e ∈ archive, e.Own cfg.limits) :
    (∀ more, List.Forall₂ (Asks cfg.limits) archive more → Good cfg (items ++ more) →
      ∃ st', st.entries cfg (archive.map .ok) = (st', none) ∧ Reflects cfg (items ++ more) st') ∧
    ((st.entries cfg (archive.map .ok)).2 = none →
      ∃ more, List.Forall₂ (Asks cfg.limits) archive more ∧ Good cfg (items ++ more)) := by
  induction archive generalizing items st with
  | nil =>
    refine ⟨fun more asked _ => ?_, fun _ => ⟨[], .nil, by rwa [List.append_nil]⟩⟩
    cases asked
    rw [List.append_nil]
    exact ⟨st, rfl, reflects⟩
  | cons e rest ih =>
    obtain ⟨onward, back⟩ := entry_exact reflects good fit (own e List.mem_cons_self)
    have later : ∀ e ∈ rest, e.Own cfg.limits := fun e member =>
      own e (List.mem_cons_of_mem _ member)
    rw [List.map_cons]
    unfold State.entries
    constructor
    · intro more asked together
      cases asked with
      | @cons _ i _ more first rest' =>
        rw [List.append_cons] at together ⊢
        have here : Good cfg (items ++ [i]) := together.left
        obtain ⟨st₁, accepted, reflects₁⟩ := onward i first here
        rw [accepted]
        exact (ih reflects₁ here later).1 more rest' together
    · intro accepted
      obtain ⟨st₁, first, rest', -⟩ := andThen_eq_ok accepted
      obtain ⟨i, asked, here⟩ := back (by rw [first])
      obtain ⟨st', first', reflects₁⟩ := onward i asked here
      obtain rfl : st₁ = st' := (Prod.mk.inj (first.symm.trans first')).1
      obtain ⟨more, askedRest, together⟩ := (ih reflects₁ here later).2 rest'
      exact ⟨i :: more, .cons asked askedRest, by rwa [List.append_cons]⟩


/-! ### The whole archive -/

theorem reflects_start {fs : Fs} (empty : fs.readDir cfg.dest = some []) :
    Reflects cfg [] { fs := fs, trouble := [] } := by
  have dir : fs.lookup cfg.dest = some .dir := by
    unfold Fs.readDir at empty
    split at empty
    · assumption
    · cases empty
  have nothing : ∀ q, q ≠ [] → fs.lookup (cfg.dest ++ q) = none := by
    intro q top
    exact Option.map_eq_none_iff.mp ((shows_start empty [] q).trans (if_neg top))
  refine ⟨⟨rfl, dir, fun q => ?_⟩, ?_, fun q node top => ?_, fun key => ?_, ?_, rfl, fun _ => rfl⟩
  · refine ⟨fun member => (nomatch member), fun ⟨top, here⟩ => ?_⟩
    rw [nothing q top] at here
    cases here
  · exact fun i member => (nomatch member)
  · refine ⟨fun here => ?_, fun ⟨i, member, _⟩ => (nomatch member)⟩
    rw [nothing q top] at here
    cases here
  · exact ⟨fun _ member => (nomatch member), fun _ => rfl⟩
  · exact fun q member => (nomatch member)

theorem lookup_outside {fs : Fs} {archive : List (Except ExtractError Entry)} {path : Path}
    (outside : ¬ cfg.dest <+: path) :
    (extractInto cfg fs [] archive).1.fs.lookup path = fs.lookup path := by
  have contained := contained_extractInto cfg fs [] archive
  cases before : fs.lookup path with
  | some node => exact contained.kept path node before
  | none =>
    by_contra now
    obtain ⟨m, member, place⟩ := contained.new path before now
    obtain ⟨-, place', -⟩ := contained.made m member
    exact outside ⟨m.asked, place'.symm.trans place⟩

/-- What succeeds in one order succeeds in another, with the same counts and the same objects. -/
theorem extraction_follows (fit : cfg.limits.Fit) {fs : Fs} {archive archive' : List Entry}
    (own : ∀ e ∈ archive, e.Own cfg.limits)
    (perm : archive.Perm archive')
    (accepted : (extractInto cfg fs [] (archive.map .ok)).2 = none) :
    (extractInto cfg fs [] (archive'.map .ok)).2 = none ∧
      (extractInto cfg fs [] (archive'.map .ok)).1.out =
        (extractInto cfg fs [] (archive.map .ok)).1.out ∧
      ∀ path, (extractInto cfg fs [] (archive'.map .ok)).1.fs.lookup path =
        (extractInto cfg fs [] (archive.map .ok)).1.fs.lookup path := by
  have outside := fun archive path => @lookup_outside cfg fs archive path
  unfold extractInto at accepted outside ⊢
  dsimp only at accepted outside ⊢
  split at accepted
  · cases accepted
  · cases accepted
  · rename_i empty
    simp only [empty] at outside
    have start := reflects_start empty
    have nothing : Good cfg [] :=
      ⟨Nat.zero_le _, fun i member => (nomatch member), List.nodup_nil, .nil, Nat.zero_le _⟩
    have own' : ∀ e ∈ archive', e.Own cfg.limits := fun e member =>
      own e (perm.symm.subset member)
    obtain ⟨run, back⟩ := entries_exact start nothing fit own
    obtain ⟨items, asked, good⟩ := back accepted
    obtain ⟨items', asked', perm'⟩ := List.perm_comp_forall₂ perm.symm asked
    have good' : Good cfg ([] ++ items') := good.perm perm'.symm
    obtain ⟨st, done, reflects⟩ := run items asked good
    obtain ⟨st', done', reflects'⟩ :=
      (entries_exact start nothing fit own').1 items' asked' good'
    have mem : ∀ i, i ∈ [] ++ items' ↔ i ∈ [] ++ items := fun i => perm'.mem_iff
    have unmoved := outside (archive.map .ok)
    have unmoved' := outside (archive'.map .ok)
    rw [done] at unmoved ⊢
    rw [done'] at unmoved' ⊢
    refine ⟨rfl, ?_, fun path => ?_⟩
    · rw [reflects.out, reflects'.out]
      exact tally_perm perm'
    · by_cases inside : cfg.dest <+: path
      · obtain ⟨q, rfl⟩ := inside
        by_cases top : q = []
        · rw [top, List.append_nil, reflects.coherent.root, reflects'.coherent.root]
        · ext node
          rw [reflects.lookup q node top, reflects'.lookup q node top]
          simp only [mem]
      · exact (unmoved' path inside).trans (unmoved path inside).symm

/-- **The order of the entries does not matter**, on a host that fails no call. -/
theorem extraction_permuted (fit : cfg.limits.Fit) (fs : Fs) {archive archive' : List Entry}
    (own : ∀ e ∈ archive, e.Own cfg.limits) (perm : archive.Perm archive') :
    ((extractInto cfg fs [] (archive.map .ok)).2 = none ↔
      (extractInto cfg fs [] (archive'.map .ok)).2 = none) ∧
    ((extractInto cfg fs [] (archive.map .ok)).2 = none →
      (extractInto cfg fs [] (archive'.map .ok)).1.out =
          (extractInto cfg fs [] (archive.map .ok)).1.out ∧
        ∀ path, (extractInto cfg fs [] (archive'.map .ok)).1.fs.lookup path =
          (extractInto cfg fs [] (archive.map .ok)).1.fs.lookup path) := by
  have own' : ∀ e ∈ archive', e.Own cfg.limits := fun e member => own e (perm.symm.subset member)
  refine ⟨⟨fun accepted => ?_, fun accepted => ?_⟩, fun accepted => ?_⟩
  · exact (extraction_follows fit own perm accepted).1
  · exact (extraction_follows fit own' perm.symm accepted).1
  · exact (extraction_follows fit own perm accepted).2

def steadySetting : Setting :=
  { dest := [], limits := {}, nfc := id, patience := 64 }

theorem extraction_permuted_files :
    ((extractInto steadySetting emptyFs [] ([fileIn "a" "b", fileIn "c" "d"].map .ok)).2 = none ↔
      (extractInto steadySetting emptyFs [] ([fileIn "c" "d", fileIn "a" "b"].map .ok)).2 = none) ∧
    ((extractInto steadySetting emptyFs [] ([fileIn "a" "b", fileIn "c" "d"].map .ok)).2 = none →
      (extractInto steadySetting emptyFs [] ([fileIn "c" "d", fileIn "a" "b"].map .ok)).1.out =
          (extractInto steadySetting emptyFs [] ([fileIn "a" "b", fileIn "c" "d"].map .ok)).1.out ∧
        ∀ path, (extractInto steadySetting emptyFs []
            ([fileIn "c" "d", fileIn "a" "b"].map .ok)).1.fs.lookup path =
          (extractInto steadySetting emptyFs []
            ([fileIn "a" "b", fileIn "c" "d"].map .ok)).1.fs.lookup path) := by
  refine extraction_permuted ⟨by decide, by decide⟩ emptyFs (fun e member => ?_)
    (List.Perm.swap _ _ [])
  rcases List.mem_pair.mp member with rfl | rfl
  all_goals
    refine ⟨by decide, fun path named' root => ?_⟩
    obtain rfl := Option.some.inj named'
    revert root
    decide +kernel

end HullCi.Fetch
