/-
**One tenant has one spelling.**

The tenant is what a repository string begins with. Ingest rewrites the string, the control plane
takes its tenant, and the membership list compares it with tenants taken from its own entries; each
of them trims and splits for itself.

* `canonicalRepo_eq_ok` — what the canonical spelling is, segment by segment.
* `tenantOf_canonical` — the tenant of a string is the first segment of its canonical spelling.
* `classify_iff` — the list of trusted tenants asks for this tenant, or has the star.
* `one_spelling` — the three agree on every string that ingest accepts.
-/

import HullCi.Control.LogKeys
import HullCi.Proto.Lines
import Mathlib.Data.Finset.Basic

namespace HullCi.Server

open HullCi.Proto HullCi.Control

/-! ### Trusted tenants -/

/-- The tenants whose authors this deployment treats as members. -/
structure TrustedTenants where
  /-- `*`: every tenant. -/
  all : Bool := false
  names : Finset String := ∅

namespace TrustedTenants

/-- The entries of a comma-separated list. -/
def entries (raw : String) : List String :=
  (((raw.toList.splitOn ',').map String.ofList).map trim).filter (· ≠ "")

/-- One entry of the list. -/
def add (out : TrustedTenants) (name : String) : TrustedTenants :=
  if name = "*" then { out with all := true }
  else { out with names := insert (tenantOf name) out.names }

def parse (raw : String) : TrustedTenants :=
  (entries raw).foldl add {}

def isTrusted (t : TrustedTenants) (tenant : String) : Bool :=
  t.all || tenant ∈ t.names

/-- The author is not looked at. -/
def classify (t : TrustedTenants) (repo _author : String) : AuthorClass :=
  if t.isTrusted (tenantOf repo) then .member else .outsider

end TrustedTenants

/-! ### Trimming -/

/-- The characters of a trimmed string. -/
def trimmed (l : List Char) : List Char :=
  (trim (String.ofList l)).toList

theorem toList_trim_eq (s : String) : (trim s).toList = trimmed s.toList := by
  unfold trimmed
  rw [String.ofList_toList]

theorem trimmed_eq_self {l : List Char} (solid : ∀ c ∈ l, isWhitespace c = false) :
    trimmed l = l := by
  unfold trimmed
  rw [trim_eq_self, String.toList_ofList]
  · intro c first
    rw [String.toList_ofList] at first
    exact solid c (List.mem_of_mem_head? first)
  · intro c last
    rw [String.toList_ofList] at last
    exact solid c (List.mem_of_mem_getLast? last)

theorem mem_trimmed {l : List Char} {c : Char} (mem : c ∈ trimmed l) : c ∈ l := by
  have inner := mem_trim mem
  rw [String.toList_ofList] at inner
  exact inner

theorem length_trimmed (l : List Char) : (trimmed l).length ≤ l.length := by
  have bound := length_trim (String.ofList l)
  rw [String.toList_ofList] at bound
  exact bound

/-! ### Segments -/

theorem mem_splitOn {sep c : Char} {l piece : List Char} (mem : piece ∈ l.splitOn sep)
    (inner : c ∈ piece) : c ∈ l ∧ c ≠ sep := by
  induction l generalizing piece with
  | nil =>
    rw [List.splitOn_nil, List.mem_singleton] at mem
    rw [mem] at inner
    cases inner
  | cons x l ih =>
    rw [List.splitOn_cons_eq_if_modifyHead] at mem
    split_ifs at mem with here
    · obtain rfl | later := List.mem_cons.mp mem
      · cases inner
      · exact ⟨List.mem_cons_of_mem _ (ih later inner).1, (ih later inner).2⟩
    · obtain ⟨first, rest, whole⟩ := List.exists_cons_of_ne_nil (List.splitOn_ne_nil sep l)
      rw [whole, List.modifyHead_cons] at mem
      obtain rfl | later := List.mem_cons.mp mem
      · obtain rfl | later := List.mem_cons.mp inner
        · exact ⟨List.mem_cons_self, fun same => here (by rw [same]; exact beq_self_eq_true _)⟩
        · obtain ⟨there, other⟩ := ih (by rw [whole]; exact List.mem_cons_self) later
          exact ⟨List.mem_cons_of_mem _ there, other⟩
      · obtain ⟨there, other⟩ := ih (by rw [whole]; exact List.mem_cons_of_mem _ later) inner
        exact ⟨List.mem_cons_of_mem _ there, other⟩

/-- The first piece is what stands before the first separator. -/
theorem head_splitOn (sep : Char) (l : List Char) :
    (l.splitOn sep).head? = some (l.takeWhile (· ≠ sep)) := by
  induction l with
  | nil => rfl
  | cons x l ih =>
    rw [List.splitOn_cons_eq_if_modifyHead]
    by_cases here : x = sep
    · rw [if_pos (by rw [here]; exact beq_self_eq_true _), List.takeWhile_cons_of_neg (by simpa)]
      rfl
    · obtain ⟨first, rest, whole⟩ := List.exists_cons_of_ne_nil (List.splitOn_ne_nil sep l)
      rw [whole, List.head?_cons, Option.some.injEq] at ih
      rw [if_neg (by simpa using here), whole, List.modifyHead_cons, List.head?_cons, ih,
        List.takeWhile_cons_of_pos (by simpa)]

theorem length_intercalate_le {sep : List Char} {f : List Char → List Char}
    (shorter : ∀ l, (f l).length ≤ l.length) (pieces : List (List Char)) :
    (sep.intercalate (pieces.map f)).length ≤ (sep.intercalate pieces).length := by
  induction pieces with
  | nil => exact Nat.le_refl _
  | cons piece pieces ih =>
    cases pieces with
    | nil =>
      rw [List.map_singleton, List.intercalate_singleton, List.intercalate_singleton]
      exact shorter piece
    | cons next pieces =>
      have bound := shorter piece
      rw [List.map_cons, List.intercalate_cons_of_ne_nil, List.intercalate_cons_of_ne_nil]
      · rw [List.length_append, List.length_append, List.length_append, List.length_append]
        omega
      · exact List.cons_ne_nil _ _
      · exact List.cons_ne_nil _ _

/-! ### The canonical spelling -/

theorem mapM_eq_ok {α β ε : Type} {f : α → Except ε β} {P : α → Prop} {g : α → β}
    (each : ∀ x y, f x = .ok y ↔ P x ∧ y = g x) (xs : List α) (ys : List β) :
    xs.mapM f = .ok ys ↔ (∀ x ∈ xs, P x) ∧ ys = xs.map g := by
  induction xs generalizing ys with
  | nil =>
    rw [List.mapM_nil, List.map_nil]
    exact ⟨fun same => ⟨nofun, (Except.ok.inj same).symm⟩, fun ⟨_, same⟩ => by rw [same]; rfl⟩
  | cons x xs ih =>
    rw [List.mapM_cons, List.forall_mem_cons, List.map_cons]
    cases first : f x with
    | error e =>
      refine iff_of_false nofun fun ⟨⟨holds, _⟩, _⟩ => ?_
      rw [(each x (g x)).mpr ⟨holds, rfl⟩] at first
      cases first
    | ok y =>
      obtain ⟨holds, rfl⟩ := (each x y).mp first
      cases rest : xs.mapM f with
      | error e =>
        refine iff_of_false nofun fun ⟨⟨_, all⟩, _⟩ => ?_
        rw [(ih _).mpr ⟨all, rfl⟩] at rest
        cases rest
      | ok later =>
        obtain ⟨all, rfl⟩ := (ih _).mp rest
        refine ⟨fun same => ⟨⟨holds, all⟩, (Except.ok.inj same).symm⟩, fun ⟨_, same⟩ => ?_⟩
        rw [same]
        rfl

theorem checked_eq_ok (raw name : String) :
    (do
      let segment := trim raw
      checkPathSegment segment
      return segment : Except String String) = .ok name ↔
      Ordinary (trim raw).toList ∧ name = trim raw := by
  have ordinary := checkPathSegment_eq_ok (s := (trim raw).toList)
  rw [String.ofList_toList] at ordinary
  rw [← ordinary]
  dsimp only
  cases checkPathSegment (trim raw) with
  | error why => exact iff_of_false nofun nofun
  | ok u => exact ⟨fun same => ⟨rfl, (Except.ok.inj same).symm⟩, fun ⟨_, same⟩ => by rw [same]; rfl⟩

/-- **The canonical spelling, segment by segment.** -/
theorem canonicalRepo_eq_ok {r c : String} :
    canonicalRepo r = .ok c ↔ trim r ≠ "" ∧ (trim r).toList.length ≤ maxRepoLen ∧
      (∀ s ∈ segments (trim r), Ordinary (trimmed s)) ∧
      c.toList = ['/'].intercalate ((segments (trim r)).map trimmed) := by
  have joined : ∀ names : List String, (String.intercalate "/" names).toList =
      ['/'].intercalate (names.map String.toList) := fun names => String.toList_intercalate
  unfold canonicalRepo
  dsimp only
  split_ifs with empty long
  · exact iff_of_false nofun fun held => held.1 empty
  · exact iff_of_false nofun fun held => absurd held.2.1 (by omega)
  · have pieces := fun names => mapM_eq_ok checked_eq_ok
      (((trim r).toList.splitOn '/').map String.ofList) names
    dsimp only at pieces
    generalize (List.mapM _ (((trim r).toList.splitOn '/').map String.ofList) :
      Except String (List String)) = out at pieces ⊢
    simp only [List.forall_mem_map, List.map_map] at pieces
    cases out with
    | error e =>
      refine iff_of_false nofun fun ⟨_, _, ordinary, _⟩ => ?_
      have read := (pieces _).mpr ⟨ordinary, rfl⟩
      cases read
    | ok names =>
      obtain ⟨ordinary, rfl⟩ := (pieces names).mp rfl
      have whole := joined (((trim r).toList.splitOn '/').map (trim ∘ String.ofList))
      rw [List.map_map] at whole
      constructor
      · intro same
        have spelled := Except.ok.inj same
        refine ⟨empty, by omega, ordinary, ?_⟩
        rw [← spelled]
        exact whole
      · rintro ⟨-, -, -, same⟩
        exact congrArg Except.ok (String.toList_inj.mp (whole.trans same.symm))

theorem segments_canonical {r c : String} (accepted : canonicalRepo r = .ok c) :
    segments c = (segments (trim r)).map trimmed ∧ ∀ s ∈ segments c, Ordinary s := by
  obtain ⟨-, -, ordinary, spelled⟩ := canonicalRepo_eq_ok.mp accepted
  have split : segments c = (segments (trim r)).map trimmed := by
    unfold segments
    rw [spelled]
    refine List.splitOn_intercalate '/' ?_ (by simp [segments])
    intro l mem inner
    obtain ⟨raw, there, rfl⟩ := List.mem_map.mp mem
    exact (mem_splitOn there (mem_trimmed inner)).2 rfl
  refine ⟨split, fun s mem => ?_⟩
  rw [split] at mem
  obtain ⟨raw, there, rfl⟩ := List.mem_map.mp mem
  exact ordinary raw there

theorem mem_intercalate {sep : List Char} {pieces : List (List Char)} {c : Char}
    (mem : c ∈ sep.intercalate pieces) : c ∈ sep ∨ ∃ piece ∈ pieces, c ∈ piece := by
  induction pieces with
  | nil => cases mem
  | cons piece pieces ih =>
    by_cases last : pieces = []
    · rw [last, List.intercalate_singleton] at mem
      exact .inr ⟨piece, List.mem_cons_self, mem⟩
    · rw [List.intercalate_cons_of_ne_nil last, List.mem_append, List.mem_append] at mem
      obtain (here | between) | later := mem
      · exact .inr ⟨piece, List.mem_cons_self, here⟩
      · exact .inl between
      · refine (ih later).imp_right ?_
        rintro ⟨piece', there, inner⟩
        exact ⟨piece', List.mem_cons_of_mem _ there, inner⟩

theorem solid_canonical {r c : String} (accepted : canonicalRepo r = .ok c) :
    ∀ ch ∈ c.toList, isWhitespace ch = false := by
  intro ch mem
  have whole : ['/'].intercalate (segments c) = c.toList := List.intercalate_splitOn '/'
  rw [← whole] at mem
  obtain between | ⟨s, there, inner⟩ := mem_intercalate mem
  · rw [List.mem_singleton.mp between]
    decide
  · exact (((segments_canonical accepted).2 s there).visible ch inner).1

theorem trim_canonical {r c : String} (accepted : canonicalRepo r = .ok c) : trim c = c := by
  rw [← String.toList_inj, toList_trim_eq]
  exact trimmed_eq_self (solid_canonical accepted)

theorem trimmed_ordinary {s : List Char} (ordinary : Ordinary s) : trimmed s = s :=
  trimmed_eq_self fun ch mem => (ordinary.visible ch mem).1

theorem map_trimmed_canonical {r c : String} (accepted : canonicalRepo r = .ok c) :
    (segments c).map trimmed = segments c := by
  rw [List.map_congr_left fun s mem =>
    trimmed_ordinary ((segments_canonical accepted).2 s mem)]
  exact List.map_id _

/-- **A canonical spelling is its own canonical spelling.** -/
theorem canonical_canonical {r c : String} (accepted : canonicalRepo r = .ok c) :
    canonicalRepo c = .ok c := by
  obtain ⟨some', short, -, spelled⟩ := canonicalRepo_eq_ok.mp accepted
  obtain ⟨split, ordinary⟩ := segments_canonical accepted
  have own : trim c = c := trim_canonical accepted
  rw [canonicalRepo_eq_ok, own, map_trimmed_canonical accepted]
  refine ⟨?_, ?_, fun s mem => ?_, (List.intercalate_splitOn '/').symm⟩
  · rintro rfl
    obtain ⟨s, rest, whole⟩ := List.exists_cons_of_ne_nil (segments_ne_nil "")
    have first := ordinary s (by rw [whole]; exact List.mem_cons_self)
    cases whole
    exact first.filled rfl
  · refine Nat.le_trans ?_ short
    rw [spelled]
    refine Nat.le_trans (length_intercalate_le length_trimmed _) ?_
    unfold segments
    rw [List.intercalate_splitOn]
  · rw [trimmed_ordinary (ordinary s mem)]
    exact ordinary s mem

/-! ### The tenant -/

/-- The tenant is the first segment, trimmed, when there is something in it. -/
theorem toList_tenantOf {r : String} {first : List Char} {rest : List (List Char)}
    (split : (segments (trim r)).map trimmed = first :: rest) (some' : first ≠ []) :
    (tenantOf r).toList = first := by
  have head := head_splitOn '/' (trim r).toList
  have same : trimmed ((trim r).toList.takeWhile (· ≠ '/')) = first := by
    have head' := congrArg List.head? split
    rw [List.head?_map] at head'
    unfold segments at head'
    rw [head] at head'
    exact Option.some.inj head'
  unfold tenantOf
  dsimp only
  rw [if_neg]
  · exact same
  · intro none
    refine some' (same.symm.trans ?_)
    exact congrArg String.toList none

/-- **The tenant of a string is the first segment of its canonical spelling.** -/
theorem tenantOf_canonical {r c : String} (accepted : canonicalRepo r = .ok c) :
    tenantOf r = tenantOf c ∧ ∃ rest, segments c = (tenantOf c).toList :: rest := by
  obtain ⟨split, ordinary⟩ := segments_canonical accepted
  obtain ⟨first, rest, whole⟩ := List.exists_cons_of_ne_nil (segments_ne_nil c)
  have filled := (ordinary first (by rw [whole]; exact List.mem_cons_self)).filled
  have here := toList_tenantOf (split.symm.trans whole) filled
  have own : (segments (trim c)).map trimmed = first :: rest := by
    rw [trim_canonical accepted, map_trimmed_canonical accepted, whole]
  replace own := toList_tenantOf own filled
  exact ⟨String.toList_inj.mp (here.trans own.symm), rest, by rw [own, whole]⟩

/-! ### Membership -/

namespace TrustedTenants

theorem all_foldl (names : List String) (t : TrustedTenants) :
    (names.foldl add t).all = true ↔ t.all = true ∨ "*" ∈ names := by
  induction names generalizing t with
  | nil => simp
  | cons name names ih =>
    rw [List.foldl_cons, ih, List.mem_cons]
    unfold add
    by_cases star : name = "*"
    · rw [if_pos star]
      simp [star]
    · rw [if_neg star]
      simp [Ne.symm star]

theorem names_foldl (names : List String) (t : TrustedTenants) (tenant : String) :
    tenant ∈ (names.foldl add t).names ↔
      tenant ∈ t.names ∨ ∃ name ∈ names, name ≠ "*" ∧ tenantOf name = tenant := by
  induction names generalizing t with
  | nil => simp
  | cons name names ih =>
    rw [List.foldl_cons, ih, List.exists_mem_cons_iff]
    unfold add
    by_cases star : name = "*"
    · rw [if_pos star]
      simp [star]
    · rw [if_neg star]
      dsimp only
      rw [Finset.mem_insert]
      constructor
      · rintro ((same | old) | later)
        · exact .inr (.inl ⟨star, same.symm⟩)
        · exact .inl old
        · exact .inr (.inr later)
      · rintro (old | ⟨-, same⟩ | later)
        · exact .inl (.inr old)
        · exact .inl (.inl same.symm)
        · exact .inr later

/-- **Who is a member**: the list has the star, or an entry of the same tenant. -/
theorem classify_iff (list repo author : String) :
    (parse list).classify repo author = .member ↔
      "*" ∈ entries list ∨ ∃ name ∈ entries list, tenantOf name = tenantOf repo := by
  have star := all_foldl (entries list) {}
  have named := names_foldl (entries list) {} (tenantOf repo)
  have trusted : (parse list).isTrusted (tenantOf repo) = true ↔
      "*" ∈ entries list ∨ ∃ name ∈ entries list, tenantOf name = tenantOf repo := by
    unfold isTrusted parse
    rw [Bool.or_eq_true, star, decide_eq_true_iff, named]
    constructor
    · rintro ((never | star) | never | ⟨name, mem, -, same⟩)
      · cases never
      · exact .inl star
      · cases never
      · exact .inr ⟨name, mem, same⟩
    · rintro (star | ⟨name, mem, same⟩)
      · exact .inl (.inr star)
      · by_cases here : name = "*"
        · exact .inl (.inr (here ▸ mem))
        · exact .inr (.inr ⟨name, mem, here, same⟩)
  unfold classify
  split_ifs with yes
  · exact iff_of_true rfl (trusted.mp yes)
  · exact iff_of_false nofun fun held => yes (trusted.mpr held)

end TrustedTenants

/-! ### One spelling -/

/-- What ingest, the control plane and the membership list make of a string that ingest accepts. -/
structure OneSpelling (r c : String) : Prop where
  canonical : canonicalRepo c = .ok c
  tenant : tenantOf r = tenantOf c
  first : ∃ rest, segments c = (tenantOf c).toList :: rest
  plain : tenantOf c ≠ "" ∧ ∀ ch ∈ (tenantOf c).toList, ch ≠ '/' ∧ isWhitespace ch = false ∧
    isControl ch = false ∧ isInvisibleFormatting ch = false
  /-- Other tenants have other canonical spellings. -/
  apart : ∀ r', canonicalRepo r' = .ok c → tenantOf r' = tenantOf r
  names : ∀ s ∈ segments c, s ≠ [] ∧ s ≠ ['.'] ∧ s ≠ ['.', '.']
  sameClass : ∀ list author author', (TrustedTenants.parse list).classify r author =
    (TrustedTenants.parse list).classify c author'
  isMember : ∀ list author, (TrustedTenants.parse list).classify r author = .member ↔
    "*" ∈ TrustedTenants.entries list ∨
      ∃ name ∈ TrustedTenants.entries list, tenantOf name = tenantOf r

/-- **One tenant, one spelling.** -/
theorem one_spelling {r c : String} (accepted : canonicalRepo r = .ok c) : OneSpelling r c := by
  obtain ⟨tenant, rest, split⟩ := tenantOf_canonical accepted
  obtain ⟨-, ordinary⟩ := segments_canonical accepted
  have here : (tenantOf c).toList ∈ segments c := by
    rw [split]
    exact List.mem_cons_self
  exact {
    canonical := canonical_canonical accepted
    tenant := tenant
    first := ⟨rest, split⟩
    plain := by
      refine ⟨fun none => (ordinary _ here).filled (by rw [none]; rfl), fun ch mem => ?_⟩
      exact ⟨(mem_splitOn here mem).2, (ordinary _ here).visible ch mem⟩
    apart := fun r' accepted' => (tenantOf_canonical accepted').1.trans tenant.symm
    names := fun s mem => ⟨(ordinary s mem).filled, (ordinary s mem).dots⟩
    sameClass := fun list author author' => by
      unfold TrustedTenants.classify
      rw [tenant]
    isMember := fun list author => TrustedTenants.classify_iff list r author }

/-- A string with blanks around its segments. -/
theorem one_spelling_sample : OneSpelling " acme / widget " "acme/widget" :=
  one_spelling (by decide)

end HullCi.Server
