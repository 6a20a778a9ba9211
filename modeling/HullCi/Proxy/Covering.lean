/-
**Which upstream serves a URL, when several cover it.**

The absolute form and every redirect take the first upstream, in the order of the labels, that has
the URL's origin and a base path the URL's begins with. Two bases of one origin may cover one URL:
then the labels decide, and with them the grant check and the credential.

* `follow_reach`, `policy_reach` — where the choice is used.
* `name_free_of_apart` — bases that do not cover each other leave one upstream to a URL, whatever
  labels.
* `name_free_iff` — the labels never decide exactly when the bases are `Apart`.
-/

import HullCi.Proxy.Server
import Mathlib.Data.List.Sort
import Mathlib.Logic.Equiv.Basic

namespace HullCi.Proxy

/-- The upstream's origin and base path cover the URL. -/
def Upstream.covers (u : Upstream) (url : Url) : Bool :=
  decide (u.origin = originOf url) && under u.base.url.path url.path

/-- An upstream without its label. -/
def Upstream.nameless (u : Upstream) : Upstream :=
  { u with name := "" }

/-- The pair that tells two upstreams apart: the origin, and the path of the base. -/
def Upstream.place (u : Upstream) : (String × String × ℕ) × String :=
  (u.origin, u.base.url.path)

namespace Allowlist

/-- The upstream that most specifically covers a URL. -/
def Specific (list : Allowlist) (url : Url) (u : Upstream) : Prop :=
  u ∈ list.upstreams ∧ u.covers url = true ∧ ∀ v ∈ list.upstreams, v.covers url = true →
    v.base.url.path.toList.length ≤ u.base.url.path.toList.length

/-- The same upstreams under other labels. -/
def Renamed (list list' : Allowlist) : Prop :=
  ∃ rename : String → String, Function.Injective rename ∧
    list'.upstreams.Perm (list.upstreams.map fun u => { u with name := rename u.name })

/-- A URL with a set of granted labels: the check that `handle` and every redirect make. -/
def reach (crate : UrlCrate) (list : Allowlist) (labels : List String) (raw : String) :
    Except DenyReason (Upstream × Url) :=
  match list.resolveAbsolute crate raw with
  | .error d => .error d
  | .ok (upstream, url) =>
    if upstream.name ∈ labels then .ok (upstream, url) else .error (.notGranted upstream.name)

/-- The upstream of a URL does not depend on the labels: it is the most specific, so a grant of it
is enough and no other credential is sent. -/
structure NameFree (crate : UrlCrate) (list : Allowlist) : Prop where
  same : ∀ list', list.Renamed list' → ∀ raw,
    (list'.resolveAbsolute crate raw).map (fun served => (served.1.nameless, served.2)) =
      (list.resolveAbsolute crate raw).map fun served => (served.1.nameless, served.2)
  specific : ∀ list', list.Renamed list' → ∀ raw u url,
    list'.resolveAbsolute crate raw = .ok (u, url) → list'.Specific url u
  granted : ∀ list', list.Renamed list' → ∀ raw url v labels, crate.parse raw = .ok url →
    list'.Specific url v → v.name ∈ labels →
      (∀ label, list'.reach crate labels raw ≠ .error (.notGranted label)) ∧
      ∀ u url', list'.reach crate labels raw = .ok (u, url') → u = v

/-- No upstream's base lies under another's of the same origin. -/
def Apart (list : Allowlist) : Prop :=
  ∀ u ∈ list.upstreams, ∀ v ∈ list.upstreams, u ≠ v → u.origin = v.origin →
    under u.base.url.path v.base.url.path = false

end Allowlist

open Allowlist

/-! ### Where the choice is used -/

/-- A redirect is followed to what its URL reaches under the grant. -/
theorem follow_reach (s : ProxyState) (grant : Grant) {url next : Url} {location : String}
    (joined : s.crate.join url location = some next) : follow s grant url location =
      (s.allowlist.reach s.crate grant.upstreams (s.crate.asStr next)).mapError Denied.ofDeny := by
  unfold follow reach
  rw [joined]
  dsimp only
  cases s.allowlist.resolveAbsolute s.crate (s.crate.asStr next) with
  | error d => rfl
  | ok served =>
    obtain ⟨upstream, url'⟩ := served
    dsimp only
    split <;> rfl

/-- A request in absolute form is served what its URL reaches under its grant. -/
theorem policy_reach (s : ProxyState) (grants : GrantRegistry) (now : ℕ) (req : Request)
    {token raw : String} {grant : Grant} (allowed : checkMethod req.method = .ok ())
    (served : req.method ≠ "CONNECT")
    (absolute : parseTarget req.uri req.headers = .ok (.absolute token raw))
    (authorised : (grants.authorise s.digestSecret token now).2 = .ok grant) :
    (policy s grants now req).2 =
      ((s.allowlist.reach s.crate grant.upstreams raw).map fun r => (grant, r.1, r.2)).mapError
        Denied.ofDeny := by
  unfold policy reach
  rw [if_neg served, absolute]
  dsimp only
  have token' : (Target.absolute token raw).token = token := rfl
  rw [token']
  revert authorised
  cases grants.authorise s.digestSecret token now with
  | mk after answer =>
    intro authorised
    dsimp only at authorised
    rw [authorised, allowed]
    have target : (Target.absolute token raw).resolve s = s.allowlist.resolveAbsolute s.crate raw :=
      rfl
    rw [target]
    cases s.allowlist.resolveAbsolute s.crate raw with
    | error d => rfl
    | ok served =>
      obtain ⟨upstream, url⟩ := served
      dsimp only
      split <;> rfl

/-! ### Covering -/

namespace Allowlist

variable {list list' : Allowlist} {url : Url} {u v : Upstream}

theorem covers_iff : u.covers url = true ↔
    u.origin = originOf url ∧ under u.base.url.path url.path = true := by
  unfold Upstream.covers
  rw [Bool.and_eq_true, decide_eq_true_eq]

theorem under_iff {base path : String} : under base path = true ↔ base.toList <+: path.toList :=
  List.isPrefixOf_iff_prefix

theorem serving_covers (list : Allowlist) (url : Url) :
    list.serving url = list.upstreams.find? fun u => u.covers url := rfl

/-- The upstream that serves comes before every other that covers. -/
theorem serving_first (serves : list.serving url = some u) (member : v ∈ list.upstreams)
    (covers : v.covers url = true) (other : v ≠ u) : u.name < v.name := by
  rw [serving_covers, List.find?_eq_some_iff_append] at serves
  obtain ⟨-, front, back, split, none⟩ := serves
  have ordered := list.ordered
  rw [split] at member ordered
  have later : v ∈ back := by
    rcases List.mem_append.mp member with before | rest
    · have not := none v before
      rw [covers] at not
      cases not
    · exact (List.mem_cons.mp rest).resolve_left other
  exact (List.pairwise_cons.mp (List.pairwise_append.mp ordered).2.1).1 v later

/-- Bases that do not cover each other cover no URL together. -/
theorem Apart.unique (apart : list.Apart) (here : u ∈ list.upstreams) (there : v ∈ list.upstreams)
    (covers : u.covers url = true) (covers' : v.covers url = true) : u = v := by
  obtain ⟨origin, prefix₁⟩ := covers_iff.mp covers
  obtain ⟨origin', prefix₂⟩ := covers_iff.mp covers'
  by_contra other
  rcases List.prefix_or_prefix_of_prefix (under_iff.mp prefix₁) (under_iff.mp prefix₂) with le | le
  · have not := apart u here v there other (origin.trans origin'.symm)
    rw [under_iff.mpr le] at not
    cases not
  · have not := apart v there u here (Ne.symm other) (origin'.trans origin.symm)
    rw [under_iff.mpr le] at not
    cases not

theorem serving_of_covers (apart : list.Apart) (here : u ∈ list.upstreams)
    (covers : u.covers url = true) : list.serving url = some u := by
  cases serves : list.serving url with
  | none =>
    rw [serving_covers] at serves
    exact absurd covers (by simpa using List.find?_eq_none.mp serves u here)
  | some v =>
    obtain ⟨member, origin, path⟩ := serving_some serves
    rw [apart.unique member here (covers_iff.mpr ⟨origin, path⟩) covers]

/-! ### Labels -/

theorem renamed_refl (list : Allowlist) : list.Renamed list :=
  ⟨id, Function.injective_id, by simp⟩

theorem covers_nameless (same : u.nameless = v.nameless) (url : Url) :
    u.covers url = v.covers url := by
  have base : u.nameless.base = v.nameless.base := by rw [same]
  change u.base = v.base at base
  unfold Upstream.covers Upstream.origin
  rw [base]

/-- Each upstream of a renamed list is one of the list, but for its label. -/
theorem Renamed.mem (renamed : list.Renamed list') (member : u ∈ list'.upstreams) :
    ∃ v ∈ list.upstreams, v.nameless = u.nameless := by
  obtain ⟨rename, -, perm⟩ := renamed
  obtain ⟨v, here, rfl⟩ := List.mem_map.mp (perm.mem_iff.mp member)
  exact ⟨v, here, rfl⟩

theorem Renamed.mem' (renamed : list.Renamed list') (member : v ∈ list.upstreams) :
    ∃ u ∈ list'.upstreams, u.nameless = v.nameless := by
  obtain ⟨rename, -, perm⟩ := renamed
  exact ⟨{ v with name := rename v.name }, perm.mem_iff.mpr (List.mem_map_of_mem member), rfl⟩

theorem Apart.renamed (apart : list.Apart) (renamed : list.Renamed list') : list'.Apart := by
  obtain ⟨rename, -, perm⟩ := renamed
  intro u here v there other origin
  obtain ⟨x, at₁, rfl⟩ := List.mem_map.mp (perm.mem_iff.mp here)
  obtain ⟨y, at₂, rfl⟩ := List.mem_map.mp (perm.mem_iff.mp there)
  refine apart x at₁ y at₂ ?_ origin
  rintro rfl
  exact other rfl

theorem serving_renamed (apart : list.Apart) (renamed : list.Renamed list') (url : Url) :
    (list'.serving url).map Upstream.nameless = (list.serving url).map Upstream.nameless := by
  cases serves : list.serving url with
  | none =>
    cases serves' : list'.serving url with
    | none => rfl
    | some u =>
      obtain ⟨member, origin, path⟩ := serving_some serves'
      obtain ⟨v, here, same⟩ := renamed.mem member
      have covers := (covers_nameless same url).trans (covers_iff.mpr ⟨origin, path⟩)
      rw [serving_covers] at serves
      exact absurd covers (by simpa using List.find?_eq_none.mp serves v here)
  | some v =>
    obtain ⟨member, origin, path⟩ := serving_some serves
    obtain ⟨u, there, same⟩ := renamed.mem' member
    have covers := (covers_nameless same url).trans (covers_iff.mpr ⟨origin, path⟩)
    rw [serving_of_covers (apart.renamed renamed) there covers, Option.map_some, Option.map_some,
      same]

theorem resolveAbsolute_nameless {crate : UrlCrate} {raw : String}
    (same : ∀ url, (list'.serving url).map Upstream.nameless =
      (list.serving url).map Upstream.nameless) :
    (list'.resolveAbsolute crate raw).map (fun served => (served.1.nameless, served.2)) =
      (list.resolveAbsolute crate raw).map fun served => (served.1.nameless, served.2) := by
  unfold resolveAbsolute
  cases crate.parse raw with
  | error _ => rfl
  | ok url =>
    have here := same url
    dsimp only
    by_cases hosted : url.host = none
    · rw [if_pos hosted, if_pos hosted]
    · rw [if_neg hosted, if_neg hosted]
      revert here
      cases list'.serving url with
      | none =>
        cases list.serving url with
        | none => exact fun _ => rfl
        | some v => exact nofun
      | some u =>
        cases list.serving url with
        | none => exact nofun
        | some v =>
          intro here
          rw [Option.map_some, Option.map_some, Option.some.injEq] at here
          dsimp only
          split_ifs
          · rfl
          · show Except.ok (u.nameless, url) = .ok (v.nameless, url)
            rw [here]

theorem reach_serving {crate : UrlCrate} {raw : String} {labels : List String}
    (parsed : crate.parse raw = .ok url) (serves : list.serving url = some v)
    (granted : v.name ∈ labels) :
    (∀ label, list.reach crate labels raw ≠ .error (.notGranted label)) ∧
      ∀ u url', list.reach crate labels raw = .ok (u, url') → u = v := by
  have answer : list.resolveAbsolute crate raw = .error (.notAbsolute raw) ∨
      list.resolveAbsolute crate raw = .error (.hostNotAllowlisted (hostPort url)) ∨
      list.resolveAbsolute crate raw = .ok (v, url) := by
    unfold resolveAbsolute
    rw [parsed]
    dsimp only
    rw [serves]
    dsimp only
    split_ifs
    · exact .inl rfl
    · exact .inr (.inl rfl)
    · exact .inr (.inr rfl)
  unfold reach
  rcases answer with refused | refused | served
  · rw [refused]
    exact ⟨fun label no => (by cases no), fun u url' no => (by cases no)⟩
  · rw [refused]
    exact ⟨fun label no => (by cases no), fun u url' no => (by cases no)⟩
  · rw [served]
    dsimp only
    rw [if_pos granted]
    refine ⟨fun label no => (by cases no), fun u url' same => ?_⟩
    exact (Prod.mk.inj (Except.ok.inj same)).1.symm

/-- **Bases that do not cover each other leave one upstream to a URL, whatever the labels.** -/
theorem name_free_of_apart {crate : UrlCrate} (apart : list.Apart) : list.NameFree crate where
  same list' renamed raw := resolveAbsolute_nameless (serving_renamed apart renamed)
  specific list' renamed raw u url served := by
    obtain ⟨member, origin, path⟩ := serving_some (resolveAbsolute_ok.mp served).2.2.1
    have covers := covers_iff.mpr ⟨origin, path⟩
    refine ⟨member, covers, fun v there covers' => ?_⟩
    rw [(apart.renamed renamed).unique member there covers covers']
  granted list' renamed raw url v labels parsed best granted :=
    reach_serving parsed (serving_of_covers (apart.renamed renamed) best.1 best.2.1) granted

/-! ### Two labels exchanged -/

/-- A list with two of its labels exchanged. -/
def exchange (list : Allowlist) (a b : String) : Allowlist where
  upstreams := (list.upstreams.map fun u => { u with name := Equiv.swap a b u.name }).insertionSort
    fun u v => u.name ≤ v.name
  ordered := by
    have distinct : ((list.upstreams.map fun u =>
        { u with name := Equiv.swap a b u.name }).map Upstream.name).Nodup := by
      rw [List.map_map]
      have names : (list.upstreams.map Upstream.name).Nodup := by
        rw [List.Nodup, List.pairwise_map]
        exact list.ordered.imp ne_of_lt
      have mapped := names.map (Equiv.swap a b).injective
      rw [List.map_map] at mapped
      exact mapped
    have sorted := List.pairwise_insertionSort (fun u v : Upstream => u.name ≤ v.name)
      (list.upstreams.map fun u => { u with name := Equiv.swap a b u.name })
    have perm := List.perm_insertionSort (fun u v : Upstream => u.name ≤ v.name)
      (list.upstreams.map fun u => { u with name := Equiv.swap a b u.name })
    have apart := (perm.map Upstream.name).nodup_iff.mpr distinct
    rw [List.Nodup, List.pairwise_map] at apart
    exact sorted.imp₂ (fun _ _ le other => lt_of_le_of_ne le other) apart

theorem renamed_exchange (list : Allowlist) (a b : String) : list.Renamed (list.exchange a b) :=
  ⟨Equiv.swap a b, (Equiv.swap a b).injective, List.perm_insertionSort _ _⟩

/-- An upstream serves the URL of its own base, when the labels never decide. -/
theorem NameFree.serves {crate : UrlCrate} (free : list.NameFree crate)
    (renamed : list.Renamed list') (distinct : (list'.upstreams.map Upstream.place).Nodup)
    {raw : String} (parsed : crate.parse raw = .ok v.base.url) (member : v ∈ list'.upstreams) :
    list'.serving v.base.url = some v := by
  have own : v.covers v.base.url = true :=
    covers_iff.mpr ⟨rfl, under_iff.mpr (List.prefix_refl _)⟩
  have hosted : v.base.url.host ≠ none := fun none => by
    have some' := v.base.hosted
    rw [none] at some'
    cases some'
  cases serves : list'.serving v.base.url with
  | none =>
    rw [serving_covers] at serves
    exact absurd own (by simpa using List.find?_eq_none.mp serves v member)
  | some w =>
    have served : list'.resolveAbsolute crate raw = .ok (w, v.base.url) :=
      resolveAbsolute_ok.mpr ⟨parsed, hosted, serves, v.base.bare⟩
    obtain ⟨here, covers, longest⟩ := free.specific list' renamed raw w v.base.url served
    obtain ⟨origin, path⟩ := covers_iff.mp covers
    have whole := (under_iff.mp path).eq_of_length_le (longest v member own)
    have same : w.place = v.place := Prod.ext origin (String.toList_inj.mp whole)
    rw [List.inj_on_of_nodup_map distinct here member same]

theorem Renamed.distinct (renamed : list.Renamed list')
    (distinct : (list.upstreams.map Upstream.place).Nodup) :
    (list'.upstreams.map Upstream.place).Nodup := by
  obtain ⟨rename, -, perm⟩ := renamed
  rw [(perm.map Upstream.place).nodup_iff, List.map_map]
  exact distinct

/-- **The labels never decide which upstream serves a URL, exactly when no base lies under another
of its origin.** -/
theorem name_free_iff (crate : UrlCrate) (list : Allowlist)
    (distinct : (list.upstreams.map Upstream.place).Nodup)
    (reparses : ∀ u ∈ list.upstreams, crate.parse (crate.asStr u.base.url) = .ok u.base.url) :
    list.NameFree crate ↔ list.Apart := by
  refine ⟨fun free u here v there other origin => ?_, name_free_of_apart⟩
  by_contra lies
  rw [Bool.not_eq_false] at lies
  have covers : u.covers v.base.url = true := covers_iff.mpr ⟨origin, lies⟩
  -- in the list the longer base comes first, so with the two labels exchanged the shorter one does
  have first :=
    serving_first (free.serves (renamed_refl list) distinct (reparses v there) there) here
    covers other
  have renamed := renamed_exchange list u.name v.name
  have swapped : ∀ w ∈ list.upstreams, { w with name := Equiv.swap u.name v.name w.name } ∈
      (list.exchange u.name v.name).upstreams := fun w member =>
    (List.mem_insertionSort _).mpr (List.mem_map_of_mem member)
  have there' := swapped v there
  have here' := swapped u here
  rw [Equiv.swap_apply_right] at there'
  rw [Equiv.swap_apply_left] at here'
  have serves := free.serves renamed (renamed.distinct distinct) (v := { v with name := u.name })
    (reparses v there) there'
  have second := serving_first serves here' covers
    fun same => absurd (congrArg Upstream.name same) (ne_of_lt first)
  exact absurd (lt_trans first second) (lt_irrefl _)

/-! ### A registry and a repository of one host -/

/-- A URL of the sample host. -/
def sampleUrl (path : String) : Url :=
  ⟨"https", "", none, some "packages.example", none, path, none, none⟩

/-- The crate on the sample host's two bases. -/
def sampleCrate : UrlCrate where
  parse raw :=
    if raw = "https://packages.example/" then .ok (sampleUrl "/")
    else if raw = "https://packages.example/npm/" then .ok (sampleUrl "/npm/")
    else .error "relative URL without a base"
  join _ _ := none
  asStr url := "https://packages.example" ++ url.path
  setPath url path := { url with path }

def sampleHost : Upstream :=
  ⟨"all", ⟨sampleUrl "/", .inl rfl, rfl, ⟨rfl, rfl⟩, ⟨rfl, rfl⟩, rfl⟩, none, .bearer⟩

def sampleRepository : Upstream :=
  ⟨"npm", ⟨sampleUrl "/npm/", .inl rfl, rfl, ⟨rfl, rfl⟩, ⟨rfl, rfl⟩, rfl⟩, some "NPM", .bearer⟩

/-- A whole host and one repository on it. -/
def sampleList : Allowlist where
  upstreams := [sampleHost, sampleRepository]
  ordered := List.pairwise_pair.mpr (show "all" < "npm" by decide)

theorem name_free_iff_sample : sampleList.NameFree sampleCrate ↔ sampleList.Apart := by
  refine name_free_iff sampleCrate sampleList (by decide) ?_
  intro u member
  rcases List.mem_pair.mp member with rfl | rfl <;> decide

/-- **The whole host serves what the repository was configured for**: its label comes first. -/
theorem broader_upstream_first : (sampleList.upstreams.map Upstream.place).Nodup ∧
    ¬ sampleList.NameFree sampleCrate := by
  refine ⟨by decide, fun free => ?_⟩
  have served : sampleList.resolveAbsolute sampleCrate "https://packages.example/npm/" =
      .ok (sampleHost, sampleUrl "/npm/") :=
    resolveAbsolute_ok.mpr ⟨by decide, by decide, by decide, rfl, rfl⟩
  obtain ⟨-, -, longest⟩ := free.specific sampleList (renamed_refl sampleList) _ _ _ served
  have longer := longest sampleRepository (by decide) (by decide)
  exact absurd longer (by decide)

end Allowlist

end HullCi.Proxy
