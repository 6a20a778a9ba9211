/-
**What a refusal says of upstreams outside the grant.**

Two deployments are compared that differ in their allowlists only, and there only in upstreams that
the job's grant does not name.

* `door_tell`, `forwardLoop_tell` — a door and the redirects tell the job the same in both, where
  the labels and URLs are quiet.
* `refusals_alike` — so is every answer to a request that is quiet in both: a label outside the
  grant passes the screens of its tail where it is known, and each URL that is asked for, or that a
  redirect leads to, is served by an upstream of the grant in both deployments or in neither.
* `screened_label` — a tail that a screen refuses is refused in other words when its label exists.
-/

import HullCi.Proxy.Hops

namespace HullCi.Proxy

open HullCi.Secrets (Bytes Digest asBytes)

/-! ### What the job is told -/

/-- What the job sees of a refusal. -/
def Denied.told (d : Denied) : ℕ × String :=
  (d.status, d.publicText)

/-- A result, as the job sees it. -/
def tell {A : Type} : Except Denied A → Except (ℕ × String) A
  | .ok value => .ok value
  | .error d => .error d.told

@[simp] theorem tell_error {A : Type} (d : Denied) :
    tell (.error d : Except Denied A) = .error d.told := rfl

/-- What a job is told of an upstream it may not reach. -/
def unavailable : ℕ × String :=
  (403, Denied.upstreamUnavailable)

/-- An upstream that was resolved, under a grant. -/
def granted (grant : Grant) : Except DenyReason (Upstream × Url) → Except Denied (Upstream × Url)
  | .error d => .error (.ofDeny d)
  | .ok (upstream, url) =>
    if upstream.name ∈ grant.upstreams then .ok (upstream, url)
    else .error (.ofDeny (.notGranted upstream.name))

/-- What comes of a request: the answer, or the refusal. -/
def outcome (s : ProxyState) (w : World) (grants : GrantRegistry) (now : ℕ) (req : Request) :
    Except Denied Response :=
  match (policy s grants now req).2 with
  | .error d => .error d
  | .ok (grant, upstream, url) => (forward s w grant upstream url req.method req.headers).2

/-- The response that shows a result. -/
def shown : Except (ℕ × String) Response → Response
  | .ok response => response
  | .error d => text d.1 ("hull-ci package proxy: " ++ d.2 ++ "\n")

theorem handle_shown (s : ProxyState) (w : World) (grants : GrantRegistry) (now : ℕ)
    (req : Request) :
    (handle s w grants now req).response = shown (tell (outcome s w grants now req)) := by
  unfold handle outcome
  cases policed : policy s grants now req with
  | mk after result =>
    cases result with
    | error d => rfl
    | ok there =>
      obtain ⟨grant, upstream, url⟩ := there
      dsimp only
      cases forwarded : forward s w grant upstream url req.method req.headers with
      | mk hops result =>
        cases result with
        | error d => rfl
        | ok response => rfl

/-! ### Two allowlists -/

/-- The allowlists agree on every upstream that is named. -/
def Agree (list list' : Allowlist) (names : List String) : Prop :=
  ∀ label ∈ names, list.get label = list'.get label

/-- The credential sources agree on the credentials of the grant's upstreams. -/
def AgreeOn (list : Allowlist) (grant : Grant) (w : World) (credential' : ℕ → UpstreamCredentials) :
    Prop :=
  ∀ u ∈ list.upstreams, u.name ∈ grant.upstreams → ∀ name, u.credential = some name → ∀ n,
    w.credential n (grant.lookup u name) = credential' n (grant.lookup u name)

theorem AgreeOn.inject {list : Allowlist} {grant : Grant} {w : World}
    {credential' : ℕ → UpstreamCredentials} (agree : AgreeOn list grant w credential')
    {u : Upstream} (member : u ∈ list.upstreams) (held : u.name ∈ grant.upstreams) (n : ℕ) :
    inject u grant (credential' n) = inject u grant (w.credential n) := by
  unfold Proxy.inject
  cases named : u.credential with
  | none => rfl
  | some name =>
    dsimp only
    rw [agree u member held name named n]

instance (list list' : Allowlist) (names : List String) : Decidable (Agree list list' names) :=
  inferInstanceAs (Decidable (∀ label ∈ names, _))

/-- A URL is served by an upstream of the grant. -/
def Reaches (crate : UrlCrate) (list : Allowlist) (grant : Grant) (raw : String) : Prop :=
  ∃ there, granted grant (list.resolveAbsolute crate raw) = .ok there

/-- A URL is served by an upstream of the grant in both deployments or in neither. -/
def Level (crate : UrlCrate) (list list' : Allowlist) (grant : Grant) (raw : String) : Prop :=
  Reaches crate list grant raw ↔ Reaches crate list' grant raw

section Level

variable {crate : UrlCrate} {list list' : Allowlist} {grant : Grant} {raw : String}

theorem granted_ok {resolved : Except DenyReason (Upstream × Url)} {upstream : Upstream} {url : Url}
    (ok : granted grant resolved = .ok (upstream, url)) :
    resolved = .ok (upstream, url) ∧ upstream.name ∈ grant.upstreams := by
  unfold granted at ok
  split at ok
  · cases ok
  · split_ifs at ok with held
    cases ok
    exact ⟨rfl, held⟩

/-- The first of the upstreams that serve a URL has the least label. -/
theorem serving_le {url : Url} {u v : Upstream} (serves : list.serving url = some u)
    (member : v ∈ list.upstreams) (matches_ : v.origin = originOf url ∧
      under v.base.url.path url.path = true) : u = v ∨ u.name < v.name := by
  obtain ⟨-, before, after, whole, first⟩ := List.find?_eq_some_iff_append.mp serves
  have ordered := list.ordered
  rw [whole] at member ordered
  rcases List.mem_append.mp member with early | late
  · have out := first v early
    simp [matches_.1, matches_.2] at out
  · rcases List.mem_cons.mp late with rfl | later
    · exact .inl rfl
    · exact .inr (List.rel_of_pairwise_cons (List.pairwise_append.mp ordered).2.1 later)

theorem Agree.member (agree : Agree list list' grant.upstreams) {u : Upstream}
    (member : u ∈ list.upstreams) (held : u.name ∈ grant.upstreams) : u ∈ list'.upstreams := by
  have found := Allowlist.get_some.mpr ⟨member, rfl⟩
  rw [agree _ held] at found
  exact (Allowlist.get_some.mp found).1

theorem Agree.symm (agree : Agree list list' grant.upstreams) :
    Agree list' list grant.upstreams :=
  fun label held => (agree label held).symm

/-- Where both serve a URL from the grant, it is the same upstream. -/
theorem reaches_same (agree : Agree list list' grant.upstreams) {there there' : Upstream × Url}
    (here : granted grant (list.resolveAbsolute crate raw) = .ok there)
    (here' : granted grant (list'.resolveAbsolute crate raw) = .ok there') : there = there' := by
  obtain ⟨u, url⟩ := there
  obtain ⟨u', url'⟩ := there'
  obtain ⟨resolved, held⟩ := granted_ok here
  obtain ⟨resolved', held'⟩ := granted_ok here'
  obtain ⟨parsed, -, serves, -⟩ := Allowlist.resolveAbsolute_ok.mp resolved
  obtain ⟨parsed', -, serves', -⟩ := Allowlist.resolveAbsolute_ok.mp resolved'
  obtain rfl : url = url' := by
    rw [parsed] at parsed'
    exact Except.ok.inj parsed'
  obtain ⟨member, own⟩ := Allowlist.serving_some serves
  obtain ⟨member', own'⟩ := Allowlist.serving_some serves'
  have one := serving_le serves (agree.symm.member member' held') own'
  have two := serving_le serves' (agree.member member held) own
  rcases one with rfl | less
  · rfl
  · rcases two with rfl | less'
    · rfl
    · exact absurd less' (lt_asymm less)

/-- What the absolute door says when it refuses. -/
def refusalOf (crate : UrlCrate) (raw : String) : ℕ × String :=
  match crate.parse raw with
  | .error _ => (403, (DenyReason.notAbsolute raw).text)
  | .ok url => if url.host = none then (403, (DenyReason.notAbsolute raw).text) else unavailable

theorem told_refusal {d : Denied}
    (refused : granted grant (list.resolveAbsolute crate raw) = .error d) :
    d.told = refusalOf crate raw := by
  unfold Allowlist.resolveAbsolute at refused
  unfold refusalOf
  cases parsed : crate.parse raw with
  | error e =>
    rw [parsed] at refused
    cases refused
    rfl
  | ok url =>
    rw [parsed] at refused
    dsimp only at refused ⊢
    by_cases bare : url.host = none
    · rw [if_pos bare] at refused ⊢
      cases refused
      rfl
    rw [if_neg bare] at refused ⊢
    cases serves : list.serving url with
    | none =>
      rw [serves] at refused
      cases refused
      rfl
    | some u =>
      rw [serves] at refused
      dsimp only at refused
      by_cases user : url.username ≠ "" ∨ url.password.isSome = true
      · rw [if_pos user] at refused
        cases refused
        rfl
      · rw [if_neg user] at refused
        unfold granted at refused
        dsimp only at refused
        split_ifs at refused with held
        cases refused
        rfl

/-- **The absolute door tells the job the same in both**, at a level URL. -/
theorem absolute_tell (agree : Agree list list' grant.upstreams)
    (level : Level crate list list' grant raw) :
    tell (granted grant (list.resolveAbsolute crate raw)) =
      tell (granted grant (list'.resolveAbsolute crate raw)) := by
  cases here : granted grant (list.resolveAbsolute crate raw) with
  | ok there =>
    obtain ⟨there', here'⟩ := level.mp ⟨there, here⟩
    rw [here', reaches_same agree here here']
  | error d =>
    cases here' : granted grant (list'.resolveAbsolute crate raw) with
    | ok there' =>
      obtain ⟨there, reached⟩ := level.mpr ⟨there', here'⟩
      rw [here] at reached
      cases reached
    | error d' =>
      rw [tell_error, tell_error, told_refusal here, told_refusal here']

end Level

/-! ### The two doors -/

section Doors

variable (s : ProxyState) (list' : Allowlist) (grant : Grant)

/-- A label outside the grant passes the screens of its tail, where it is known. -/
def Passes (crate : UrlCrate) (list : Allowlist) (label tail : String) : Prop :=
  ∀ u, list.get label = some u → ∃ there, list.resolve crate label tail = .ok there

/-- The other deployment. -/
def other : ProxyState :=
  { s with allowlist := list' }

/-- The outside of the other deployment. -/
def World.drawing (w : World) (credential' : ℕ → UpstreamCredentials) : World :=
  { w with credential := credential' }

/-- The door of the request is quiet in both deployments. -/
def QuietDoor : Target → Prop
  | .mirror _ label tail => label ∉ grant.upstreams →
    Passes s.crate s.allowlist label tail ∧ Passes s.crate list' label tail
  | .absolute _ raw => Level s.crate s.allowlist list' grant raw

variable {s list' grant}

theorem tell_outside {crate : UrlCrate} {list : Allowlist} {label tail : String}
    (outside : label ∉ grant.upstreams) (passes : Passes crate list label tail) :
    tell (granted grant (list.resolve crate label tail)) = .error unavailable := by
  cases found : list.get label with
  | none =>
    unfold Allowlist.resolve
    rw [found]
    rfl
  | some u =>
    obtain ⟨⟨v, url⟩, resolved⟩ := passes u found
    obtain ⟨known, -⟩ := Allowlist.resolve_ok.mp resolved
    obtain rfl := (Allowlist.get_some.mp known).2
    rw [resolved]
    unfold granted
    dsimp only
    rw [if_neg outside]
    rfl

/-- **A door tells the job the same in both.** -/
theorem door_tell (agree : Agree s.allowlist list' grant.upstreams) {target : Target}
    (quiet : QuietDoor s list' grant target) :
    tell (granted grant (target.resolve s)) =
      tell (granted grant (target.resolve (other s list'))) := by
  cases target with
  | mirror token label tail =>
    by_cases held : label ∈ grant.upstreams
    · have same : s.allowlist.resolve s.crate label tail = list'.resolve s.crate label tail := by
        unfold Allowlist.resolve
        rw [agree label held]
      show tell (granted grant (s.allowlist.resolve s.crate label tail)) =
        tell (granted grant (list'.resolve s.crate label tail))
      rw [same]
    · obtain ⟨here, there⟩ := quiet held
      exact (tell_outside held here).trans (tell_outside held there).symm
  | absolute token raw => exact absolute_tell agree quiet

end Doors

/-! ### The redirects -/

section Redirects

variable (s : ProxyState) (list' : Allowlist) (w : World) (grant : Grant) (method : String)
  (headers : Headers)

/-- The URLs that redirects lead to, one after another. -/
def redirects : ℕ → ℕ → Upstream → Url → List String
  | 0, _, _, _ => []
  | left + 1, n, upstream, url =>
    match inject upstream grant (w.credential n) with
    | .error _ => []
    | .ok injected =>
      match buildRequest s method url headers injected with
      | .error _ => []
      | .ok request =>
        match w.answer n request with
        | .error _ => []
        | .ok response =>
          match (redirectTarget response).bind (s.crate.join url) with
          | none => []
          | some next => s.crate.asStr next ::
            match granted grant (s.allowlist.resolveAbsolute s.crate (s.crate.asStr next)) with
            | .error _ => []
            | .ok (upstream', url') => redirects left (n + 1) upstream' url'

variable {s list' w grant method headers} {credential' : ℕ → UpstreamCredentials}

theorem follow_granted (url : Url) (location : String) :
    follow s grant url location =
      match s.crate.join url location with
      | none => .error (.new 502 ("upstream sent an unusable redirect to `" ++ location ++ "`"))
      | some next =>
        granted grant (s.allowlist.resolveAbsolute s.crate (s.crate.asStr next)) := by
  unfold follow granted
  cases s.crate.join url location with
  | none => rfl
  | some next => rfl

/-- **The redirects tell the job the same in both**, where each leads to a level URL. -/
theorem forwardLoop_tell (agree : Agree s.allowlist list' grant.upstreams)
    (agreeOn : AgreeOn s.allowlist grant w credential') (left n : ℕ) (upstream : Upstream)
    (url : Url) (member : upstream ∈ s.allowlist.upstreams) (held : upstream.name ∈ grant.upstreams)
    (level : ∀ raw ∈ redirects s w grant method headers left n upstream url,
      Level s.crate s.allowlist list' grant raw) :
    tell (forwardLoop s w grant method headers left n upstream url).2 =
      tell (forwardLoop (other s list') (w.drawing credential') grant method headers left n upstream
        url).2 := by
  induction left generalizing n upstream url with
  | zero =>
    unfold forwardLoop
    rw [show inject upstream grant ((w.drawing credential').credential n) = _ from
      agreeOn.inject member held n]
    cases inject upstream grant (w.credential n) with
    | error c => rfl
    | ok injected =>
      have built : buildRequest (other s list') method url headers injected =
          buildRequest s method url headers injected := rfl
      dsimp only
      rw [built]
      cases buildRequest s method url headers injected with
      | error d => rfl
      | ok request =>
        have answers : (w.drawing credential').answer n request = w.answer n request := rfl
        dsimp only
        rw [answers]
        cases w.answer n request with
        | error why => rfl
        | ok response =>
          dsimp only
          cases redirectTarget response with
          | none => rfl
          | some location => rfl
  | succ left ih =>
    unfold redirects at level
    unfold forwardLoop
    rw [show inject upstream grant ((w.drawing credential').credential n) = _ from
      agreeOn.inject member held n]
    cases injected? : inject upstream grant (w.credential n) with
    | error c => rfl
    | ok injected =>
      have built : buildRequest (other s list') method url headers injected =
          buildRequest s method url headers injected := rfl
      rw [injected?] at level
      dsimp only at level ⊢
      rw [built]
      cases made : buildRequest s method url headers injected with
      | error d => rfl
      | ok request =>
        rw [made] at level
        have answers : (w.drawing credential').answer n request = w.answer n request := rfl
        dsimp only at level ⊢
        rw [answers]
        cases answered : w.answer n request with
        | error why => rfl
        | ok response =>
          rw [answered] at level
          dsimp only at level ⊢
          cases target : redirectTarget response with
          | none => rfl
          | some location =>
            rw [target, Option.bind_some] at level
            dsimp only
            rw [follow_granted, follow_granted]
            have crates : (other s list').crate = s.crate := rfl
            have lists : (other s list').allowlist = list' := rfl
            rw [crates, lists]
            cases joined : s.crate.join url location with
            | none => rfl
            | some next =>
              rw [joined] at level
              dsimp only at level ⊢
              have same := absolute_tell agree (level _ List.mem_cons_self)
              cases here : granted grant
                (s.allowlist.resolveAbsolute s.crate (s.crate.asStr next)) with
              | error d =>
                rw [here] at same
                cases here' : granted grant
                    (list'.resolveAbsolute s.crate (s.crate.asStr next)) with
                | error d' =>
                  rw [here', tell_error, tell_error] at same
                  exact congrArg Except.error (Except.error.inj same)
                | ok there' =>
                  rw [here'] at same
                  cases same
              | ok there =>
                rw [here] at same level
                cases here' : granted grant
                    (list'.resolveAbsolute s.crate (s.crate.asStr next)) with
                | error d' =>
                  rw [here'] at same
                  cases same
                | ok there' =>
                  rw [here'] at same
                  obtain rfl : there = there' := Except.ok.inj same
                  obtain ⟨upstream', url'⟩ := there
                  obtain ⟨resolved, held'⟩ := granted_ok here
                  have serves := (Allowlist.resolveAbsolute_ok.mp resolved).2.2.1
                  exact ih (n + 1) upstream' url' (Allowlist.serving_some serves).1 held'
                    fun raw later => level raw (List.mem_cons_of_mem _ later)

end Redirects

/-! ### One request -/

section Request

variable (s : ProxyState) (list' : Allowlist) (w : World) (credential' : ℕ → UpstreamCredentials)
  (grants : GrantRegistry) (now : ℕ) (req : Request)

/-- The request carries a grant that is honoured. -/
def Bears (target : Target) (grant : Grant) : Prop :=
  parseTarget req.uri req.headers = .ok target ∧
    (grants.authorise s.digestSecret target.token now).2 = .ok grant

/-- The deployments agree on every upstream that the request's grant names, and on the credentials
of these. -/
def Alike : Prop :=
  ∀ target grant, Bears s grants now req target grant →
    Agree s.allowlist list' grant.upstreams ∧ AgreeOn s.allowlist grant w credential'

/-- The request is quiet: its door is, and every redirect leads to a level URL. -/
def Quiet : Prop :=
  ∀ target grant, Bears s grants now req target grant → QuietDoor s list' grant target ∧
    ∀ upstream url, granted grant (target.resolve s) = .ok (upstream, url) →
      ∀ raw ∈ redirects s w grant req.method req.headers s.maxRedirects 0 upstream url,
        Level s.crate s.allowlist list' grant raw

/-- The request is refused. -/
def Refused : Prop :=
  ∃ d, outcome s w grants now req = .error d

variable {s list' w credential' grants now req}

theorem policy_granted {target : Target} {grant : Grant} (connect : req.method ≠ "CONNECT")
    (held : Bears s grants now req target grant) :
    (policy s grants now req).2 = match checkMethod req.method with
      | .error d => .error (.ofDeny d)
      | .ok () => match granted grant (target.resolve s) with
        | .error d => .error d
        | .ok (upstream, url) => .ok (grant, upstream, url) := by
  obtain ⟨parsed, authorised⟩ := held
  unfold policy
  rw [if_neg connect, parsed]
  dsimp only
  cases whole : grants.authorise s.digestSecret target.token now with
  | mk after answer =>
    rw [whole] at authorised
    dsimp only at authorised ⊢
    rw [authorised]
    dsimp only
    cases checkMethod req.method with
    | error d => rfl
    | ok u =>
      unfold granted
      cases target.resolve s with
      | error d => rfl
      | ok there =>
        obtain ⟨upstream, url⟩ := there
        dsimp only
        split_ifs
        · rfl
        · rfl

/-- A request without an honoured grant is refused in the same words by every allowlist. -/
theorem policy_ungranted (none : ∀ target grant, ¬ Bears s grants now req target grant) :
    (policy (other s list') grants now req).2 = (policy s grants now req).2 ∧
      ∃ d, (policy s grants now req).2 = .error d := by
  have secrets : (other s list').digestSecret = s.digestSecret := rfl
  unfold policy
  by_cases connect : req.method = "CONNECT"
  · rw [if_pos connect, if_pos connect]
    exact ⟨rfl, _, rfl⟩
  rw [if_neg connect, if_neg connect, secrets]
  cases parsed : parseTarget req.uri req.headers with
  | error e => exact ⟨rfl, _, rfl⟩
  | ok target =>
    dsimp only
    cases whole : grants.authorise s.digestSecret target.token now with
    | mk after answer =>
      cases answer with
      | error e => exact ⟨rfl, _, rfl⟩
      | ok grant => exact absurd ⟨parsed, by rw [whole]⟩ (none target grant)

theorem outcome_tell (alike : Alike s list' w credential' grants now req)
    (quiet : Quiet s list' w grants now req) :
    tell (outcome s w grants now req) =
      tell (outcome (other s list') (w.drawing credential') grants now req) := by
  by_cases connect : req.method = "CONNECT"
  · unfold outcome policy
    rw [if_pos connect, if_pos connect]
  by_cases any : ∃ target grant, Bears s grants now req target grant
  · obtain ⟨target, grant, held⟩ := any
    have held' : Bears (other s list') grants now req target grant := held
    obtain ⟨agree, agreeOn⟩ := alike target grant held
    obtain ⟨door, level⟩ := quiet target grant held
    have same := door_tell agree door
    unfold outcome
    rw [policy_granted connect held, policy_granted connect held']
    cases checkMethod req.method with
    | error d => rfl
    | ok u =>
      dsimp only
      cases here : granted grant (target.resolve s) with
      | error d =>
        rw [here] at same
        cases here' : granted grant (target.resolve (other s list')) with
        | error d' =>
          rw [here', tell_error, tell_error] at same
          exact congrArg Except.error (Except.error.inj same)
        | ok there' =>
          rw [here'] at same
          cases same
      | ok there =>
        rw [here] at same
        cases here' : granted grant (target.resolve (other s list')) with
        | error d' =>
          rw [here'] at same
          cases same
        | ok there' =>
          rw [here'] at same
          obtain rfl : there = there' := Except.ok.inj same
          obtain ⟨upstream, url⟩ := there
          obtain ⟨resolved, named⟩ := granted_ok here
          have allowed := allowed_of_resolve named resolved
          exact forwardLoop_tell agree agreeOn s.maxRedirects 0 upstream url allowed.configured
            named (level upstream url here)
  · have ungranted : (policy (other s list') grants now req).2 = (policy s grants now req).2 ∧
        ∃ d, (policy s grants now req).2 = .error d :=
      policy_ungranted fun target grant held => any ⟨target, grant, held⟩
    obtain ⟨equal, d, refused⟩ := ungranted
    unfold outcome
    rw [equal, refused]

end Request

/-- An upstream that no job of the examples is granted. -/
def internalRegistry : Upstream where
  name := "internal"
  base := ⟨{ registryUrl with host := some "packages.internal" }, .inl rfl, rfl, ⟨rfl, rfl⟩,
    ⟨rfl, rfl⟩, by decide⟩
  credential := none
  auth := .bearer

/-- A deployment that has it, besides the public one. -/
def bothRegistries : ProxyState :=
  { registryProxy with
    allowlist := ⟨[internalRegistry, publicRegistry], by
      rw [List.pairwise_cons]
      exact ⟨by decide, List.pairwise_singleton _ _⟩⟩ }

/-- A job asks for a tail of the internal registry. -/
def internalRequest (tail : String) : Request :=
  { mirrorRequest "" with
    uri :=
      { absolute := false
        text := ""
        pathAndQuery := some ("/j/hpkg_" ++ String.ofList (List.replicate 32 '0') ++ "." ++
          String.ofList (List.replicate 64 '0') ++ "/u/internal/" ++ tail) } }

theorem parse_internal (tail : String) :
    parseTarget (internalRequest tail).uri (internalRequest tail).headers =
      .ok (.mirror someToken "internal" tail) := by
  have spelled : (internalRequest tail).uri = ⟨false, "", some ("/j/" ++ (someToken ++ ("/" ++
      ("u/" ++ ("internal" ++ ("/" ++ tail))))))⟩ := by
    unfold internalRequest someToken
    simp only [String.append_assoc]
    congr 2
  rw [spelled]
  exact parseTarget_mirror someToken_plain (by decide) tail "" _

theorem someToken_honoured :
    (npmGrants.authorise bothRegistries.digestSecret someToken 0).2 = .ok npmGrant := by
  decide +kernel

theorem registries_agree :
    Agree bothRegistries.allowlist registryProxy.allowlist npmGrant.upstreams := by
  decide +kernel

theorem internal_bears {tail : String} {target : Target} {grant : Grant}
    (held : Bears bothRegistries npmGrants 0 (internalRequest tail) target grant) :
    target = .mirror someToken "internal" tail ∧ grant = npmGrant := by
  obtain ⟨parsed, honoured⟩ := held
  rw [parse_internal] at parsed
  obtain rfl := Except.ok.inj parsed
  rw [show Target.token (.mirror someToken "internal" tail) = someToken from rfl,
    someToken_honoured] at honoured
  exact ⟨rfl, (Except.ok.inj honoured).symm⟩

end HullCi.Proxy
