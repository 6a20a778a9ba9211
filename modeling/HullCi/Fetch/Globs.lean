/-
**What a glob selects, and what it means.**

* `Taken.stands`, `Stands.taken` — the matcher takes only what the segment stands for; on a name
  without a literal `*` it takes all of it.
* `mem_collect` — the walk reaches each covered path, and nothing else.
* `select_meant` — when the selection is the glob's meaning, in each shape.
-/

import HullCi.Base.Framing
import HullCi.Fetch.Segments

namespace HullCi.Fetch

open HullCi.Base HullCi.Proto

/-! ### The matcher within a segment -/

/-- The segment stands for the name. -/
def Stands (segment name : String) : Prop :=
  Wild segment.toList name.toList

/-- The matcher takes the name. -/
def Taken (segment name : String) : Prop :=
  segmentMatches segment name = true

theorem Fitted.wild {p n : List Char} (reads : Fitted p n) : Wild p n := by
  induction reads with
  | done => exact .done
  | same rest hyp => exact .same hyp
  | one rest hyp => exact .one hyp
  | @star p n k other rest hyp =>
    clear other rest
    induction k generalizing n with
    | zero => exact .skip hyp
    | succ k onward =>
      cases n with
      | nil => exact .skip hyp
      | cons c n => exact .more (onward hyp)

/-- On a name without a `*` every cut is shy. -/
theorem fitted_of_wild {p n : List Char} (plain : '*' ∉ n) (wild : Wild p n) : Fitted p n := by
  have other : ∀ {n : List Char}, '*' ∉ n → n.head? ≠ some '*' :=
    fun plain faced => plain (List.mem_of_mem_head? faced)
  induction wild with
  | done => exact .done
  | same rest hyp => exact .same (hyp fun member => plain (List.mem_cons_of_mem _ member))
  | one rest hyp => exact .one (hyp fun member => plain (List.mem_cons_of_mem _ member))
  | skip rest hyp => exact .star 0 (other plain) (hyp plain)
  | more rest hyp =>
    obtain ⟨k, later⟩ := (hyp fun member => plain (List.mem_cons_of_mem _ member)).star_later
    exact .star (k + 1) (other plain) later

theorem taken_fitted {segment name : String} :
    Taken segment name ↔ Fitted segment.toList name.toList :=
  (segmentMatches_ends segment name).2

theorem Taken.stands {segment name : String} (taken : Taken segment name) : Stands segment name :=
  (taken_fitted.mp taken).wild

theorem taken_self (segment : String) : Taken segment segment := by
  refine taken_fitted.mpr ?_
  induction segment.toList with
  | nil => exact .done
  | cons c rest hyp => exact .same hyp

/-- **On a name without a literal `*`, the matcher takes all that the segment stands for.** -/
theorem Stands.taken {segment name : String} (plain : '*' ∉ name.toList)
    (stands : Stands segment name) : Taken segment name :=
  taken_fitted.mpr (fitted_of_wild plain stands)

theorem stands_literal (segment name : String) (literal : wild segment = false) :
    Stands segment name ↔ segment = name :=
  (wild_literal literal).trans String.toList_inj

theorem taken_literal (segment name : String) (literal : wild segment = false) :
    Taken segment name ↔ segment = name := by
  constructor
  · intro taken
    exact (stands_literal segment name literal).mp taken.stands
  · rintro rfl
    exact taken_self segment

/-! ### The meaning -/

/-- The segments stand for the path: `**` for any run of names and a final one for none, where the
directory reached is what is meant. -/
def Covers (fits : String → String → Prop) : List String → List String → Prop
  | [], _ => False
  | [last], names => if last = "**" then names = [] else ∃ n, names = [n] ∧ fits last n
  | first :: rest, names =>
    if first = "**" then ∃ front back, names = front ++ back ∧ Covers fits rest back
    else ∃ n back, names = n :: back ∧ fits first n ∧ Covers fits rest back

theorem covers_last {fits : String → String → Prop} {last : String} {names : List String} :
    Covers fits [last] names ↔
      if last = "**" then names = [] else ∃ n, names = [n] ∧ fits last n := Iff.rfl

theorem covers_cons {fits : String → String → Prop} {first second : String}
    {rest names : List String} :
    Covers fits (first :: second :: rest) names ↔
      if first = "**" then ∃ front back, names = front ++ back ∧ Covers fits (second :: rest) back
      else ∃ n back, names = n :: back ∧ fits first n ∧ Covers fits (second :: rest) back := Iff.rfl

/-- A file or symlink, or a directory with one somewhere below. -/
inductive HasContent : Index → Prop
  | leaf (mode : ℕ) (id : ObjectId) : HasContent (.leaf mode id)
  | dir (id : ObjectId) {entries : List (String × Index)} {e : String × Index}
      (mem : e ∈ entries) (content : HasContent e.2) : HasContent (.dir id entries)

/-- What a path leads to. -/
def Index.at (dir : Index) : List String → Option Index
  | [] => some dir
  | name :: rest => (dir.child name).bind fun sub => Index.at sub rest

/-- The segments end in `**`. -/
def EndsInGlobstar (segments : List String) : Prop :=
  segments.getLast? = some "**"

instance (segments : List String) : Decidable (EndsInGlobstar segments) :=
  inferInstanceAs (Decidable (_ = _))

/-- The entry is one the glob means: its path matches, a final `**` reaches a directory, and there is
content in it. -/
structure Means (segments path : List String) (entry : Index) : Prop where
  covers : Covers Stands segments path
  reaches : EndsInGlobstar segments → entry.isDir = true
  content : HasContent entry

/-- What the walk takes the segments for. -/
structure Walked (segments path : List String) (entry : Index) : Prop where
  covers : Covers Taken segments path
  reaches : EndsInGlobstar segments → entry.entries ≠ []

def Index.matched (entry : Index) (path : List String) : Matched :=
  ⟨joinPath path, entry.mode, entry.id⟩

/-- The segments a shape was parsed from. -/
def Shape.segments : Shape → List String
  | .exact path => path
  | .subtree path => path ++ ["**"]
  | .pattern segments => segments

theorem Covers.mono {fits fits' : String → String → Prop} {segments names : List String}
    (le : ∀ s, ∀ n ∈ names, fits s n → fits' s n) (covers : Covers fits segments names) :
    Covers fits' segments names := by
  induction segments generalizing names with
  | nil => exact covers
  | cons first rest ih =>
    cases rest with
    | nil =>
      rw [covers_last] at covers ⊢
      split_ifs at covers ⊢ with star
      · exact covers
      · obtain ⟨n, rfl, fit⟩ := covers
        exact ⟨n, rfl, le first n List.mem_cons_self fit⟩
    | cons second rest =>
      rw [covers_cons] at covers ⊢
      split_ifs at covers ⊢ with star
      · obtain ⟨front, back, rfl, covers⟩ := covers
        exact ⟨front, back, rfl, ih (fun s n mem => le s n (List.mem_append_right _ mem)) covers⟩
      · obtain ⟨n, back, rfl, fit, covers⟩ := covers
        exact ⟨n, back, rfl, le first n List.mem_cons_self fit,
          ih (fun s n mem => le s n (List.mem_cons_of_mem _ mem)) covers⟩

/-- Every segment is one without wildcards. -/
def Literal (segments : List String) : Prop :=
  ∀ s ∈ segments, wild s = false

theorem Literal.notStar {segments : List String} (literal : Literal segments) {s : String}
    (mem : s ∈ segments) : s ≠ "**" := by
  rintro rfl
  exact absurd (literal _ mem) (by decide)

section Literal

variable {fits : String → String → Prop} (self : ∀ s n, wild s = false → (fits s n ↔ s = n))

include self

theorem covers_literal {segments names : List String} (literal : Literal segments)
    (some : segments ≠ []) : Covers fits segments names ↔ names = segments := by
  induction segments generalizing names with
  | nil => exact absurd rfl some
  | cons first rest ih =>
    have plain := fun n => self first n (literal first List.mem_cons_self)
    have notStar := literal.notStar List.mem_cons_self
    cases rest with
    | nil =>
      simp only [covers_last, if_neg notStar, plain]
      constructor
      · rintro ⟨n, rfl, rfl⟩
        rfl
      · rintro rfl
        exact ⟨first, rfl, rfl⟩
    | cons second rest =>
      have ih := fun names => @ih names (fun s mem => literal s (List.mem_cons_of_mem _ mem))
        (List.cons_ne_nil _ _)
      rw [covers_cons, if_neg notStar]
      simp only [plain]
      constructor
      · rintro ⟨n, back, rfl, rfl, covers⟩
        rw [(ih back).mp covers]
      · rintro rfl
        exact ⟨first, _, rfl, rfl, (ih _).mpr rfl⟩

theorem covers_under {path names : List String} (literal : Literal path) :
    Covers fits (path ++ ["**"]) names ↔ names = path := by
  induction path generalizing names with
  | nil => simp [covers_last]
  | cons first rest ih =>
    have plain := fun n => self first n (literal first List.mem_cons_self)
    have notStar := literal.notStar List.mem_cons_self
    have ih := fun names => @ih names (fun s mem => literal s (List.mem_cons_of_mem _ mem))
    obtain ⟨second, more, split⟩ : ∃ second more, rest ++ ["**"] = second :: more :=
      List.exists_cons_of_ne_nil (by simp)
    rw [List.cons_append]
    rw [split] at ih ⊢
    simp only [covers_cons, if_neg notStar, plain]
    constructor
    · rintro ⟨n, back, rfl, rfl, covers⟩
      rw [(ih back).mp covers]
    · rintro rfl
      exact ⟨first, _, rfl, rfl, (ih _).mpr rfl⟩

end Literal

/-! ### Paths of a sound tree -/

theorem Index.isDir_of_entries {dir : Index} {e : String × Index} (mem : e ∈ dir.entries) :
    dir.isDir = true := by
  cases dir with
  | leaf mode id => nomatch mem
  | dir id entries => rfl

theorem Index.mode_of_entries {dir : Index} (some : dir.entries ≠ []) : dir.mode = modeDir := by
  cases dir with
  | leaf mode id => exact absurd rfl some
  | dir id entries => rfl

namespace Index.Sound

variable {dir : Index}

theorem sub (sound : dir.Sound) {e : String × Index} (mem : e ∈ dir.entries) : e.2.Sound := by
  cases sound with
  | leaf => nomatch mem
  | dir id sorted names subs => exact subs e mem

theorem name (sound : dir.Sound) {e : String × Index} (mem : e ∈ dir.entries) :
    e.1.toList ≠ [] ∧ '/' ∉ e.1.toList := by
  cases sound with
  | leaf => nomatch mem
  | dir id sorted names subs => exact names e mem

theorem child_iff (sound : dir.Sound) {name : String} {sub : Index} :
    dir.child name = some sub ↔ (name, sub) ∈ dir.entries := by
  cases sound with
  | leaf => simp [Index.child, Index.entries]
  | @dir id entries sorted names subs =>
    simp only [Index.child, Index.entries]
    clear names subs
    induction entries with
    | nil => simp
    | cons e rest ih =>
      obtain ⟨first, head⟩ := e
      rw [List.pairwise_cons] at sorted
      rw [List.lookup_cons]
      by_cases same : name = first
      · subst same
        simp only [BEq.rfl, Option.some.injEq, List.mem_cons, Prod.mk.injEq, true_and]
        constructor
        · rintro rfl
          exact .inl rfl
        · rintro (same | later)
          · exact same.symm
          · exact absurd (sorted.1 _ later) (lt_irrefl _)
      · have different : (name == first) = false := beq_eq_false_iff_ne.mpr same
        simp only [different, List.mem_cons, Prod.mk.injEq, same, false_and, false_or]
        exact ih sorted.2

theorem at_cons (sound : dir.Sound) {name : String} {rest : List String} {entry : Index} :
    dir.at (name :: rest) = some entry ↔
      ∃ e ∈ dir.entries, e.1 = name ∧ e.2.at rest = some entry := by
  simp only [Index.at, Option.bind_eq_some_iff, sound.child_iff]
  constructor
  · rintro ⟨sub, mem, found⟩
    exact ⟨_, mem, rfl, found⟩
  · rintro ⟨⟨_, sub⟩, mem, rfl, found⟩
    exact ⟨sub, mem, found⟩

theorem at_sound (sound : dir.Sound) {path : List String} {entry : Index}
    (found : dir.at path = some entry) : entry.Sound := by
  induction path generalizing dir with
  | nil =>
    cases found
    exact sound
  | cons name rest ih =>
    obtain ⟨e, mem, _, found⟩ := sound.at_cons.mp found
    exact ih (sound.sub mem) found

theorem at_names (sound : dir.Sound) {path : List String} {entry : Index}
    (found : dir.at path = some entry) : ∀ n ∈ path, n.toList ≠ [] ∧ '/' ∉ n.toList := by
  induction path generalizing dir with
  | nil => simp
  | cons name rest ih =>
    obtain ⟨e, mem, rfl, below⟩ := sound.at_cons.mp found
    intro n named
    rcases List.mem_cons.mp named with rfl | named
    · exact sound.name mem
    · exact ih (sound.sub mem) below n named

end Index.Sound

theorem Index.at_append (dir : Index) (front back : List String) :
    dir.at (front ++ back) = (dir.at front).bind fun sub => sub.at back := by
  induction front generalizing dir with
  | nil => rfl
  | cons name rest ih =>
    simp only [List.cons_append, Index.at, Option.bind_assoc]
    congr 1
    funext sub
    exact ih sub

theorem descend_at (dir : Index) {path : List String} (some : path ≠ []) :
    descend dir path = dir.at path := by
  induction path generalizing dir with
  | nil => exact absurd rfl some
  | cons name rest ih =>
    cases rest with
    | nil =>
      simp only [descend, Index.at, Option.bind_fun_some]
    | cons second rest =>
      simp only [descend]
      rw [Index.at]
      congr 1
      funext sub
      exact ih sub (List.cons_ne_nil _ _)

theorem joinPath_injective {path path' : List String}
    (names : ∀ n ∈ path, n.toList ≠ [] ∧ '/' ∉ n.toList)
    (names' : ∀ n ∈ path', n.toList ≠ [] ∧ '/' ∉ n.toList) (same : joinPath path = joinPath path') :
    path = path' := by
  have read : ∀ {path : List String}, (∀ n ∈ path, n.toList ≠ [] ∧ '/' ∉ n.toList) → path ≠ [] →
      (joinPath path).toList.splitOn '/' = path.map String.toList := by
    intro path names some
    rw [joinPath, String.toList_ofList]
    refine List.splitOn_intercalate '/' ?_ (by simpa using some)
    intro l mem
    obtain ⟨n, named, rfl⟩ := List.mem_map.mp mem
    exact (names n named).2
  have empty : ∀ {path : List String}, (∀ n ∈ path, n.toList ≠ [] ∧ '/' ∉ n.toList) →
      joinPath path = "" → path = [] := by
    intro path names blank
    by_contra some
    have parts := read names some
    rw [blank] at parts
    obtain ⟨n, rest, rfl⟩ := List.exists_cons_of_ne_nil some
    have first : [] = n.toList := (List.cons.inj parts).1
    exact (names n List.mem_cons_self).1 first.symm
  by_cases none : path = []
  · subst none
    exact (empty names' same.symm).symm
  by_cases none' : path' = []
  · subst none'
    exact empty names same
  have parts := read names none
  rw [same, read names' none'] at parts
  exact (List.map_injective_iff.mpr (fun _ _ same => String.toList_inj.mp same) parts).symm

/-! ### The walk -/

theorem globstarEntries_cons {visit : Index → List String → List Matched} {front : List String}
    {name : String} {sub : Index} {rest : List (String × Index)} :
    globstar.globstarEntries visit front ((name, sub) :: rest) =
      globstar visit (front ++ [name]) sub ++ globstar.globstarEntries visit front rest := rfl

theorem globstar_dir {visit : Index → List String → List Matched} {front : List String}
    {id : ObjectId} {entries : List (String × Index)} :
    globstar visit front (.dir id entries) =
      visit (.dir id entries) front ++ globstar.globstarEntries visit front entries := rfl

theorem collect_cons {first : String} {rest : List String} {dir : Index} {front : List String} :
    collect (first :: rest) dir front =
      if first = "**" then
        if rest = [] then
          if dir.entries = [] then [] else [⟨joinPath front, modeDir, dir.id⟩]
        else globstar (collect rest) front dir
      else
        dir.entries.flatMap fun e =>
          if segmentMatches first e.1 then
            if rest = [] then [⟨joinPath (front ++ [e.1]), e.2.mode, e.2.id⟩]
            else collect rest e.2 (front ++ [e.1])
          else [] := rfl

theorem mem_globstarEntries {visit : Index → List String → List Matched} {front : List String}
    {entries : List (String × Index)} {m : Matched} :
    m ∈ globstar.globstarEntries visit front entries ↔
      ∃ e ∈ entries, m ∈ globstar visit (front ++ [e.1]) e.2 := by
  induction entries with
  | nil =>
    change m ∈ [] ↔ _
    simp
  | cons e rest ih =>
    obtain ⟨name, sub⟩ := e
    simp [globstarEntries_cons, ih]

/-- `**` leads to every directory below, each at its path. -/
theorem mem_globstar {visit : Index → List String → List Matched} {dir : Index}
    (sound : dir.Sound) (front : List String) {m : Matched} :
    m ∈ globstar visit front dir ↔
      ∃ path sub, dir.at path = some sub ∧ sub.isDir = true ∧ m ∈ visit sub (front ++ path) := by
  have whole := sound
  induction sound generalizing front with
  | leaf mode id =>
    change m ∈ [] ↔ _
    simp only [List.not_mem_nil, false_iff]
    rintro ⟨path, sub, found, isDir, _⟩
    cases path with
    | nil =>
      cases found
      simp [Index.isDir] at isDir
    | cons name rest =>
      obtain ⟨e, mem, _⟩ := whole.at_cons.mp found
      nomatch mem
  | @dir id entries sorted names subs ih =>
    rw [globstar_dir, List.mem_append, mem_globstarEntries]
    constructor
    · rintro (here | ⟨e, mem, below⟩)
      · exact ⟨[], _, rfl, rfl, by rwa [List.append_nil]⟩
      · obtain ⟨path, sub, found, isDir, seen⟩ := (ih e mem _ (subs e mem)).mp below
        refine ⟨e.1 :: path, sub, whole.at_cons.mpr ⟨e, mem, rfl, found⟩, isDir, ?_⟩
        rwa [List.append_assoc, List.singleton_append] at seen
    · rintro ⟨path, sub, found, isDir, seen⟩
      cases path with
      | nil =>
        cases found
        left
        rwa [List.append_nil] at seen
      | cons name rest =>
        obtain ⟨e, mem, rfl, below⟩ := whole.at_cons.mp found
        right
        refine ⟨e, mem, (ih e mem _ (subs e mem)).mpr ⟨rest, sub, below, isDir, ?_⟩⟩
        rwa [List.append_assoc, List.singleton_append]

theorem Covers.reaches_here {fits : String → String → Prop} {segments : List String}
    (covers : Covers fits segments []) : EndsInGlobstar segments := by
  induction segments with
  | nil => exact covers.elim
  | cons first rest ih =>
    cases rest with
    | nil =>
      rw [covers_last] at covers
      split_ifs at covers with star
      · subst star
        rfl
      · obtain ⟨n, none, _⟩ := covers
        exact absurd none (by simp)
    | cons second rest =>
      rw [covers_cons] at covers
      split_ifs at covers with star
      · obtain ⟨front, back, none, covers⟩ := covers
        obtain ⟨rfl, rfl⟩ := List.append_eq_nil_iff.mp none.symm
        unfold EndsInGlobstar
        rw [List.getLast?_cons_cons]
        exact ih covers
      · obtain ⟨n, back, none, _⟩ := covers
        exact absurd none (by simp)

/-- **The walk collects the entry of each covered path, and nothing else.** -/
theorem mem_collect {segments : List String} {dir : Index} (sound : dir.Sound)
    (front : List String) {m : Matched} :
    m ∈ collect segments dir front ↔
      ∃ path entry, dir.at path = some entry ∧ Walked segments path entry ∧
        m = entry.matched (front ++ path) := by
  induction segments generalizing dir front with
  | nil =>
    change m ∈ [] ↔ _
    simp only [List.not_mem_nil, false_iff]
    rintro ⟨path, entry, _, walked, _⟩
    exact walked.covers
  | cons first rest ih =>
    by_cases star : first = "**"
    · subst star
      by_cases final : rest = []
      · subst final
        simp only [collect_cons, if_true]
        constructor
        · intro here
          split_ifs at here with none
          · nomatch here
          · rw [List.mem_singleton] at here
            refine ⟨[], dir, rfl, ⟨by simp [covers_last], fun _ => none⟩, ?_⟩
            rw [here, Index.matched, List.append_nil, Index.mode_of_entries none]
        · rintro ⟨path, entry, found, walked, rfl⟩
          obtain rfl : path = [] := by simpa [covers_last] using walked.covers
          cases found
          have some := walked.reaches rfl
          rw [if_neg some, List.mem_singleton, Index.matched, List.append_nil,
            Index.mode_of_entries some]
      · obtain ⟨second, more, rfl⟩ := List.exists_cons_of_ne_nil final
        simp only [collect_cons, if_true, if_neg final]
        rw [mem_globstar sound]
        constructor
        · rintro ⟨path, sub, found, isDir, seen⟩
          obtain ⟨path', entry, found', walked, rfl⟩ := (ih (sound.at_sound found) _).mp seen
          refine ⟨path ++ path', entry, ?_, ⟨?_, ?_⟩, by rw [List.append_assoc]⟩
          · rw [Index.at_append, found]
            exact found'
          · simp only [covers_cons, if_true]
            exact ⟨path, path', rfl, walked.covers⟩
          · intro ends
            exact walked.reaches (by
              unfold EndsInGlobstar at ends
              rwa [List.getLast?_cons_cons] at ends)
        · rintro ⟨path, entry, found, walked, rfl⟩
          have covers := walked.covers
          simp only [covers_cons, if_true] at covers
          obtain ⟨path, path', rfl, covers⟩ := covers
          rw [Index.at_append] at found
          obtain ⟨sub, reached, found⟩ := Option.bind_eq_some_iff.mp found
          have reaches : EndsInGlobstar (second :: more) → entry.entries ≠ [] := fun ends =>
            walked.reaches (by
              unfold EndsInGlobstar
              rwa [List.getLast?_cons_cons])
          refine ⟨path, sub, reached, ?_, (ih (sound.at_sound reached) _).mpr
            ⟨path', entry, found, ⟨covers, reaches⟩, by rw [List.append_assoc]⟩⟩
          cases path' with
          | nil =>
            cases found
            obtain ⟨e, mem⟩ := List.exists_mem_of_ne_nil _ (reaches covers.reaches_here)
            exact Index.isDir_of_entries mem
          | cons name rest =>
            obtain ⟨e, mem, _⟩ := (sound.at_sound reached).at_cons.mp found
            exact Index.isDir_of_entries mem
    · simp only [collect_cons, if_neg star, List.mem_flatMap]
      by_cases final : rest = []
      · subst final
        constructor
        · rintro ⟨e, mem, seen⟩
          by_cases taken : segmentMatches first e.1 = true
          · rw [if_pos taken, if_pos rfl, List.mem_singleton] at seen
            refine ⟨[e.1], e.2, sound.at_cons.mpr ⟨e, mem, rfl, rfl⟩, ⟨?_, ?_⟩, seen⟩
            · simp only [covers_last, if_neg star]
              exact ⟨e.1, rfl, taken⟩
            · intro ends
              exact absurd (Option.some.inj ends) star
          · rw [if_neg taken] at seen
            nomatch seen
        · rintro ⟨path, entry, found, walked, rfl⟩
          have covers := walked.covers
          simp only [covers_last, if_neg star] at covers
          obtain ⟨n, rfl, taken⟩ := covers
          obtain ⟨e, mem, rfl, below⟩ := sound.at_cons.mp found
          cases below
          refine ⟨e, mem, ?_⟩
          rw [if_pos (show segmentMatches first e.1 = true from taken), if_pos rfl]
          exact List.mem_singleton_self _
      · obtain ⟨second, more, rfl⟩ := List.exists_cons_of_ne_nil final
        constructor
        · rintro ⟨e, mem, seen⟩
          by_cases taken : segmentMatches first e.1 = true
          · rw [if_pos taken, if_neg final] at seen
            obtain ⟨path, entry, found, walked, rfl⟩ := (ih (sound.sub mem) _).mp seen
            refine ⟨e.1 :: path, entry, sound.at_cons.mpr ⟨e, mem, rfl, found⟩, ⟨?_, ?_⟩, by simp⟩
            · simp only [covers_cons, if_neg star]
              exact ⟨e.1, path, rfl, taken, walked.covers⟩
            · intro ends
              exact walked.reaches (by
                unfold EndsInGlobstar at ends
                rwa [List.getLast?_cons_cons] at ends)
          · rw [if_neg taken] at seen
            nomatch seen
        · rintro ⟨path, entry, found, walked, rfl⟩
          have covers := walked.covers
          simp only [covers_cons, if_neg star] at covers
          obtain ⟨n, path, rfl, taken, covers⟩ := covers
          obtain ⟨e, mem, rfl, below⟩ := sound.at_cons.mp found
          refine ⟨e, mem, ?_⟩
          rw [if_pos (show segmentMatches first e.1 = true from taken), if_neg final,
            ih (sound.sub mem)]
          refine ⟨path, entry, below, ⟨covers, fun ends => walked.reaches ?_⟩, by simp⟩
          unfold EndsInGlobstar
          rwa [List.getLast?_cons_cons]

/-! ### One of each path -/

theorem dedupByPath_cons {m : Matched} {rest : List Matched} :
    dedupByPath (m :: rest) =
      match dedupByPath rest with
      | [] => [m]
      | next :: rest => if m.path = next.path then m :: rest else m :: next :: rest := rfl

theorem dedupByPath_sub {l : List Matched} {m : Matched} (mem : m ∈ dedupByPath l) : m ∈ l := by
  induction l with
  | nil => exact mem
  | cons first rest ih =>
    rw [dedupByPath_cons] at mem
    split at mem
    · rw [List.mem_singleton] at mem
      exact mem ▸ List.mem_cons_self
    · rename_i next more kept
      rw [kept] at ih
      split_ifs at mem with same
      · rcases List.mem_cons.mp mem with rfl | later
        · exact List.mem_cons_self
        · exact List.mem_cons_of_mem _ (ih (List.mem_cons_of_mem _ later))
      · rcases List.mem_cons.mp mem with rfl | later
        · exact List.mem_cons_self
        · exact List.mem_cons_of_mem _ (ih later)

theorem dedupByPath_path {l : List Matched} {m : Matched} (mem : m ∈ l) :
    ∃ m' ∈ dedupByPath l, m'.path = m.path := by
  induction l with
  | nil => nomatch mem
  | cons first rest ih =>
    rw [dedupByPath_cons]
    rcases List.mem_cons.mp mem with rfl | later
    · refine ⟨m, ?_, rfl⟩
      split
      · exact List.mem_cons_self
      · split_ifs <;> exact List.mem_cons_self
    · obtain ⟨m', kept, same⟩ := ih later
      split
      · rename_i none
        rw [none] at kept
        nomatch kept
      · rename_i next more split
        rw [split] at kept
        split_ifs with one
        · rcases List.mem_cons.mp kept with rfl | kept
          · exact ⟨first, List.mem_cons_self, one.trans same⟩
          · exact ⟨m', List.mem_cons_of_mem _ kept, same⟩
        · exact ⟨m', List.mem_cons_of_mem _ kept, same⟩

theorem dedupByPath_sorted {l : List Matched} (sorted : l.Pairwise fun a b => a.path ≤ b.path) :
    (dedupByPath l).Pairwise fun a b => a.path < b.path := by
  induction l with
  | nil => exact List.Pairwise.nil
  | cons first rest ih =>
    rw [List.pairwise_cons] at sorted
    have strict := ih sorted.2
    have above : ∀ m ∈ dedupByPath rest, first.path ≤ m.path := fun m mem =>
      sorted.1 m (dedupByPath_sub mem)
    rw [dedupByPath_cons]
    split
    · exact List.pairwise_singleton _ _
    · rename_i next more split
      rw [split, List.pairwise_cons] at strict
      rw [split] at above
      split_ifs with same
      · rw [List.pairwise_cons]
        exact ⟨fun m mem => same ▸ strict.1 m mem, strict.2⟩
      · have below := lt_of_le_of_ne (above next List.mem_cons_self) same
        rw [List.pairwise_cons, List.pairwise_cons]
        refine ⟨fun m mem => ?_, strict⟩
        rcases List.mem_cons.mp mem with rfl | later
        · exact below
        · exact below.trans (strict.1 m later)

section Selection

variable (index : TreeIndex)

/-- A path names one entry, so folding a set loses nothing. -/
theorem matched_path {path path' : List String} {entry entry' : Index}
    (found : index.root.at path = some entry) (found' : index.root.at path' = some entry')
    (same : joinPath path = joinPath path') : path = path' ∧ entry = entry' := by
  have names := Index.Sound.at_names index.sound found
  have names' := Index.Sound.at_names index.sound found'
  obtain rfl := joinPath_injective names names' same
  exact ⟨rfl, Option.some.inj (found.symm.trans found')⟩

theorem sorted_walk (segments : List String) :
    ((collect segments index.root []).mergeSort fun a b => a.path ≤ b.path).Pairwise
      fun a b => a.path ≤ b.path :=
  pairwise_sorted (fun _ _ => decide_eq_true_iff) _

theorem pattern_once (segments : List String) :
    ((index.select (.pattern segments)).map (·.path)).Nodup :=
  List.pairwise_map.mpr ((dedupByPath_sorted (sorted_walk index segments)).imp ne_of_lt)

theorem mem_pattern {segments : List String} {m : Matched} :
    m ∈ index.select (.pattern segments) ↔
      ∃ path entry, index.root.at path = some entry ∧ Walked segments path entry ∧
        m = entry.matched path := by
  have walk := fun m => @mem_collect segments index.root index.sound [] m
  simp only [List.nil_append] at walk
  rw [← walk, TreeIndex.select]
  constructor
  · intro mem
    exact List.mem_mergeSort.mp (dedupByPath_sub mem)
  · intro mem
    obtain ⟨m', kept, same⟩ := dedupByPath_path (List.mem_mergeSort.mpr mem)
    obtain ⟨path, entry, found, _, rfl⟩ := (walk m).mp mem
    obtain ⟨path', entry', found', _, rfl⟩ :=
      (walk m').mp (List.mem_mergeSort.mp (dedupByPath_sub kept))
    obtain ⟨rfl, rfl⟩ := matched_path index found' found same
    exact kept

theorem pattern_only {segments path : List String}
    (only : ∀ names, Covers Taken segments names ↔ names = path) :
    index.select (.pattern segments) =
      match index.root.at path with
      | some entry =>
        if EndsInGlobstar segments ∧ entry.entries = [] then [] else [entry.matched path]
      | none => [] := by
  have walked : ∀ names entry, Walked segments names entry ↔
      names = path ∧ (EndsInGlobstar segments → entry.entries ≠ []) := fun names entry =>
    ⟨fun walked => ⟨(only names).mp walked.covers, walked.reaches⟩,
      fun both => ⟨(only names).mpr both.1, both.2⟩⟩
  have members : ∀ m, m ∈ index.select (.pattern segments) ↔
      ∃ entry, index.root.at path = some entry ∧ (EndsInGlobstar segments → entry.entries ≠ []) ∧
        m = entry.matched path := by
    intro m
    rw [mem_pattern]
    constructor
    · rintro ⟨names, entry, found, taken, rfl⟩
      obtain ⟨rfl, reaches⟩ := (walked names entry).mp taken
      exact ⟨entry, found, reaches, rfl⟩
    · rintro ⟨entry, found, reaches, rfl⟩
      exact ⟨path, entry, found, (walked path entry).mpr ⟨rfl, reaches⟩, rfl⟩
  cases found : index.root.at path with
  | none =>
    refine List.eq_nil_iff_forall_not_mem.mpr fun m mem => ?_
    obtain ⟨entry, here, _⟩ := (members m).mp mem
    rw [found] at here
    nomatch here
  | some entry =>
    simp only
    split_ifs with nothing
    · refine List.eq_nil_iff_forall_not_mem.mpr fun m mem => ?_
      obtain ⟨other, here, reaches, _⟩ := (members m).mp mem
      rw [found] at here
      cases here
      exact reaches nothing.1 nothing.2
    · have once := List.Nodup.of_map _ (pattern_once index segments)
      refine List.perm_singleton.mp ((List.perm_ext_iff_of_nodup once
        (List.nodup_singleton _)).mpr fun m => ?_)
      rw [members, List.mem_singleton]
      constructor
      · rintro ⟨other, here, _, rfl⟩
        rw [found] at here
        cases here
        rfl
      · rintro rfl
        exact ⟨entry, found, fun ends none => nothing ⟨ends, none⟩, rfl⟩

/-- A descent, in either of its shapes, selects what its path leads to. -/
theorem descent_only (path : List String) :
    index.select (.subtree path) =
      match index.root.at path with
      | some entry =>
        if entry.isDir = true ∧ entry.entries = [] then [] else [entry.matched path]
      | none => [] := by
  by_cases none : path = []
  · subst none
    simp only [TreeIndex.select, descend, Index.at]
    by_cases blank : index.entries = []
    · simp [blank, TreeIndex.root, Index.isDir, Index.entries]
    · simp [blank, TreeIndex.root, Index.isDir, Index.entries, Index.matched, joinPath, Index.mode,
        Index.id]
  · simp only [TreeIndex.select]
    rw [descend_at index.root none]
    cases index.root.at path with
    | none => simp [none]
    | some entry =>
      simp only [Bool.and_eq_true, List.isEmpty_iff]
      rfl

end Selection

/-! ### The glob's meaning -/

variable (blake3 : List UInt8 → ObjectId)

/-- The digest folds each entry the glob means, once, and no other; the descents agree with the
walk. -/
structure Meets (index : TreeIndex) (glob : String) (shape : Shape) : Prop where
  answer : index.subtreeDigest blake3 glob =
    .ok (fold blake3 glob shape.tag (index.select shape))
  once : ((index.select shape).map (·.path)).Nodup
  meant : ∀ m, m ∈ index.select shape ↔
    ∃ path entry, index.root.at path = some entry ∧ Means shape.segments path entry ∧
      m = entry.matched path
  walk : index.select shape = index.select (.pattern shape.segments)

/-- What must hold of the tree. A descent leads to content; under a final `**` it leads to a
directory, with content or with no entry. A walk takes nothing without content, and misses no content
for a name with a literal `*`. -/
def Clear (index : TreeIndex) : Shape → Prop
  | .exact path => ∀ entry, index.root.at path = some entry → HasContent entry
  | .subtree path => ∀ entry, index.root.at path = some entry →
      entry.isDir = true ∧ (entry.entries = [] ∨ HasContent entry)
  | .pattern segments => ∀ path entry, index.root.at path = some entry →
      (Means segments path entry → (∃ n ∈ path, '*' ∈ n.toList) → Covers Taken segments path) ∧
        (Covers Taken segments path → ¬ (EndsInGlobstar segments ∧ entry.entries = []) →
          HasContent entry)

theorem HasContent.entries {entry : Index} (content : HasContent entry)
    (isDir : entry.isDir = true) : entry.entries ≠ [] := by
  cases content with
  | leaf => simp [Index.isDir] at isDir
  | dir id mem content => exact List.ne_nil_of_mem mem

theorem Taken.self (s n : String) (literal : wild s = false) : Taken s n ↔ s = n :=
  taken_literal s n literal

/-- What `Shape.parse` promises of the path of a descent. -/
def Shape.Parsed : Shape → Prop
  | .exact path => path ≠ [] ∧ Literal path
  | .subtree path => Literal path
  | .pattern _ => True

theorem parse_parsed {glob : String} {shape : Shape} (parsed : Shape.parse glob = .ok shape) :
    shape.Parsed := by
  simp only [Shape.parse, bind, Except.bind, throw, throwThe, MonadExceptOf.throw, pure,
    Except.pure] at parsed
  split_ifs at parsed
  cases read : segmentsOf (.malformed glob) ((trim glob).toList.splitOn '/') [] with
  | error e =>
    rw [read] at parsed
    nomatch parsed
  | ok segments =>
    rw [read] at parsed
    simp only at parsed
    split_ifs at parsed with none many prefixed named
    · cases parsed
      intro s mem
      have quiet := prefixed.2
      simp only [Bool.not_eq_true', List.any_eq_false] at quiet
      simpa using quiet s mem
    · cases parsed
      refine ⟨none, fun s mem => ?_⟩
      obtain ⟨quiet, last⟩ := named
      simp only [Bool.not_eq_true', List.any_eq_false] at quiet
      rw [← List.dropLast_append_getLast none] at mem
      rcases List.mem_append.mp mem with early | final
      · simpa using quiet s early
      · rw [List.mem_singleton] at final
        subst final
        rw [List.getLast?_eq_getLast_of_ne_nil none] at last
        simpa using last
    · cases parsed
      trivial

section Shapes

variable {index : TreeIndex} {glob : String}

theorem answer_of_parse {shape : Shape} (parsed : Shape.parse glob = .ok shape) :
    index.subtreeDigest blake3 glob =
      .ok (fold blake3 glob shape.tag (index.select shape)) := by
  simp only [TreeIndex.subtreeDigest, parsed, bind, Except.bind, pure, Except.pure]

/-- A directory the walk reaches by a covered path is one the glob means, when it has content. -/
theorem Walked.means {segments path : List String} {entry : Index}
    (walked : Walked segments path entry) (content : HasContent entry) :
    Means segments path entry := by
  refine ⟨walked.covers.mono fun _ _ _ taken => taken.stands, fun ends => ?_, content⟩
  obtain ⟨e, mem⟩ := List.exists_mem_of_ne_nil _ (walked.reaches ends)
  exact Index.isDir_of_entries mem

theorem Means.walked {segments path : List String} {entry : Index}
    (means : Means segments path entry)
    (starred : (∃ n ∈ path, '*' ∈ n.toList) → Covers Taken segments path) :
    Walked segments path entry := by
  refine ⟨?_, fun ends => means.content.entries (means.reaches ends)⟩
  by_cases star : ∃ n ∈ path, '*' ∈ n.toList
  · exact starred star
  · refine means.covers.mono fun s n mem stands => stands.taken fun star' => star ⟨n, mem, star'⟩

theorem pattern_meets {segments : List String} (parsed : Shape.parse glob = .ok (.pattern segments)) :
    Meets blake3 index glob (.pattern segments) ↔ Clear index (.pattern segments) := by
  constructor
  · intro meets path entry found
    have meant := meets.meant (entry.matched path)
    rw [mem_pattern] at meant
    constructor
    · intro means _
      obtain ⟨path', entry', found', walked, same⟩ := meant.mpr ⟨path, entry, found, means, rfl⟩
      obtain ⟨rfl, rfl⟩ := matched_path index found found' (congrArg Matched.path same)
      exact walked.covers
    · intro taken some
      obtain ⟨path', entry', found', means, same⟩ :=
        meant.mp ⟨path, entry, found, ⟨taken, fun ends none => some ⟨ends, none⟩⟩, rfl⟩
      obtain ⟨rfl, rfl⟩ := matched_path index found found' (congrArg Matched.path same)
      exact means.content
  · intro clear
    refine ⟨answer_of_parse blake3 parsed, pattern_once index segments, fun m => ?_, rfl⟩
    rw [mem_pattern]
    constructor
    · rintro ⟨path, entry, found, walked, rfl⟩
      have content := (clear path entry found).2 walked.covers fun both =>
        walked.reaches both.1 both.2
      exact ⟨path, entry, found, walked.means content, rfl⟩
    · rintro ⟨path, entry, found, means, rfl⟩
      exact ⟨path, entry, found, means.walked ((clear path entry found).1 means), rfl⟩

/-- A descent meets the glob when what it selects is what the walk selects, and has content. -/
theorem descent_meets {shape : Shape} {path : List String}
    (parsed : Shape.parse glob = .ok shape)
    (only : ∀ names, Covers Taken shape.segments names ↔ names = path)
    (stands : Covers Stands shape.segments path)
    (alone : ∀ names, Covers Stands shape.segments names → names = path)
    (descends : index.select shape = index.select (.subtree path)) :
    Meets blake3 index glob shape ↔
      ∀ entry, index.root.at path = some entry →
        (EndsInGlobstar shape.segments → entry.isDir = true) ∧
        (EndsInGlobstar shape.segments ∧ entry.entries = [] ∨ HasContent entry) := by
  have walk := pattern_only index only
  have descent := descends.trans (descent_only index path)
  have meant : ∀ m, (∃ names entry, index.root.at names = some entry ∧
      Means shape.segments names entry ∧ m = entry.matched names) ↔
      ∃ entry, index.root.at path = some entry ∧ (EndsInGlobstar shape.segments →
        entry.isDir = true) ∧ HasContent entry ∧ m = entry.matched path := by
    intro m
    constructor
    · rintro ⟨names, entry, found, means, rfl⟩
      obtain rfl := alone names means.covers
      exact ⟨entry, found, means.reaches, means.content, rfl⟩
    · rintro ⟨entry, found, reaches, content, rfl⟩
      exact ⟨path, entry, found, ⟨stands, reaches, content⟩, rfl⟩
  cases found : index.root.at path with
  | none =>
    rw [found] at walk descent
    simp only at walk descent
    refine ⟨fun _ entry here => (nomatch here), fun _ => ?_⟩
    refine ⟨answer_of_parse blake3 parsed, by simp [descent], fun m => ?_, descent.trans walk.symm⟩
    rw [meant m, descent, found]
    simp
  | some entry =>
    rw [found] at walk descent
    simp only at walk descent
    have chosen : index.select shape = index.select (.pattern shape.segments) →
        ¬ (EndsInGlobstar shape.segments ∧ entry.entries = []) →
        entry.matched path ∈ index.select shape := by
      intro same some
      rw [same, walk, if_neg some]
      exact List.mem_singleton_self _
    constructor
    · intro meets other here
      obtain rfl := Option.some.inj here
      by_cases nothing : EndsInGlobstar shape.segments ∧ entry.entries = []
      · refine ⟨fun _ => ?_, .inl nothing⟩
        by_contra notDir
        have one := meets.walk
        rw [descent, walk, if_pos nothing, if_neg fun both => notDir both.1] at one
        nomatch one
      · obtain ⟨other, here, reaches, content, _⟩ :=
          (meant _).mp ((meets.meant _).mp (chosen meets.walk nothing))
        rw [found] at here
        cases here
        exact ⟨reaches, .inr content⟩
    · intro clear
      obtain ⟨reaches, nothing | content⟩ := clear entry rfl
      · rw [if_pos nothing] at walk
        rw [if_pos ⟨reaches nothing.1, nothing.2⟩] at descent
        refine ⟨answer_of_parse blake3 parsed, by simp [descent], fun m => ?_,
          descent.trans walk.symm⟩
        rw [meant m, descent]
        refine ⟨fun mem => (nomatch mem), ?_⟩
        rintro ⟨other, here, _, content, _⟩
        rw [found] at here
        cases here
        exact absurd nothing.2 (content.entries (reaches nothing.1))
      · rw [if_neg fun both => content.entries (reaches both.1) both.2] at walk
        rw [if_neg fun both => content.entries both.1 both.2] at descent
        refine ⟨answer_of_parse blake3 parsed, by simp [descent], fun m => ?_,
          descent.trans walk.symm⟩
        rw [meant m, descent, List.mem_singleton]
        constructor
        · rintro rfl
          exact ⟨entry, found, reaches, content, rfl⟩
        · rintro ⟨other, here, _, _, rfl⟩
          rw [found] at here
          cases here
          rfl

end Shapes

/-- **The selection is the glob's meaning exactly when nothing without content, or not a directory,
stands where the glob reaches, and no content is missed for a literal `*`.** -/
theorem select_meant {index : TreeIndex} {glob : String} {shape : Shape}
    (parsed : Shape.parse glob = .ok shape) :
    Meets blake3 index glob shape ↔ Clear index shape := by
  cases shape with
  | exact path =>
    obtain ⟨some, literal⟩ := parse_parsed parsed
    have descent : Meets blake3 index glob (.exact path) ↔ _ := descent_meets blake3 parsed
      (fun names => covers_literal Taken.self literal some)
      ((covers_literal stands_literal literal some).mpr rfl)
      (fun names => (covers_literal stands_literal literal some).mp) rfl
    have open' : ¬ EndsInGlobstar path := by
      intro ends
      exact literal.notStar (List.mem_of_getLast? ends) rfl
    rw [descent]
    constructor
    · intro clear entry found
      rcases (clear entry found).2 with nothing | content
      · exact absurd nothing.1 open'
      · exact content
    · intro clear entry found
      exact ⟨fun ends => absurd ends open', .inr (clear entry found)⟩
  | subtree path =>
    have literal := parse_parsed parsed
    have descent : Meets blake3 index glob (.subtree path) ↔ _ := descent_meets blake3 parsed
      (fun names => covers_under Taken.self literal)
      ((covers_under stands_literal literal).mpr rfl)
      (fun names => (covers_under stands_literal literal).mp) rfl
    have ends : EndsInGlobstar (path ++ ["**"]) := List.getLast?_concat
    rw [descent]
    constructor
    · intro clear entry found
      obtain ⟨reaches, content⟩ := clear entry found
      refine ⟨reaches ends, ?_⟩
      rcases content with nothing | content
      · exact .inl nothing.2
      · exact .inr content
    · intro clear entry found
      obtain ⟨isDir, content⟩ := clear entry found
      refine ⟨fun _ => isDir, ?_⟩
      rcases content with nothing | content
      · exact .inl ⟨ends, nothing⟩
      · exact .inr content
  | pattern segments => exact pattern_meets blake3 parsed

/-- One file, `lib.rs`. -/
def libTree : TreeIndex where
  id := [1]
  entries := [("lib.rs", .leaf 0o100644 [2])]
  sound := by
    refine .dir [1] (List.pairwise_singleton _ _) ?_ ?_
    · intro e mem
      rw [List.mem_singleton.mp mem]
      decide +kernel
    · intro e mem
      rw [List.mem_singleton.mp mem]
      exact .leaf _ _

theorem select_meant_lib : Meets (fun _ => []) libTree "*.rs" (.pattern ["*.rs"]) ↔
    Clear libTree (.pattern ["*.rs"]) :=
  select_meant (fun _ => []) (by decide +kernel)

/-- One directory, `empty`, with nothing in it. -/
def emptyTree : TreeIndex where
  id := [1]
  entries := [("empty", .dir [2] [])]
  sound := by
    refine .dir [1] (List.pairwise_singleton _ _) ?_ ?_
    · intro e mem
      rw [List.mem_singleton.mp mem]
      decide +kernel
    · intro e mem
      rw [List.mem_singleton.mp mem]
      exact .dir _ List.Pairwise.nil (fun _ none => nomatch none) fun _ none => nomatch none

/-- `*` selects an empty directory, though there is nothing in it to select. -/
theorem empty_directory_selected : Shape.parse "*" = .ok (.pattern ["*"]) ∧
    emptyTree.select (.pattern ["*"]) = [⟨"empty", modeDir, [2]⟩] ∧
      ¬ ∀ (blake3 : List UInt8 → ObjectId) (index : TreeIndex) (glob : String) (shape : Shape),
        Shape.parse glob = .ok shape → Meets blake3 index glob shape := by
  have parsed : Shape.parse "*" = .ok (.pattern ["*"]) := by decide +kernel
  have selected : emptyTree.select (.pattern ["*"]) = [⟨"empty", modeDir, [2]⟩] := by
    decide +kernel
  refine ⟨parsed, selected, fun meets => ?_⟩
  obtain ⟨path, entry, found, means, _⟩ := ((meets (fun _ => []) emptyTree "*" _ parsed).meant
    ⟨"empty", modeDir, [2]⟩).mp (selected ▸ List.mem_singleton_self _)
  obtain ⟨n, rfl, _⟩ : ∃ n, path = [n] ∧ Stands "*" n := by
    simpa [Covers, Shape.segments] using means.covers
  obtain ⟨e, mem, _, below⟩ := (Index.Sound.at_cons emptyTree.sound).mp found
  rw [List.mem_singleton.mp mem] at below
  cases below
  cases means.content with
  | dir id mem content => nomatch mem

end HullCi.Fetch
