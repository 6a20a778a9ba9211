/-
**Where credentials go.**

* `forwardLoop_turn` — what one turn of the loop does: nothing is sent; or one request is sent, and
  it was the last; or one is sent, and the loop goes on at a URL that has been through the allowlist.
* `hops_bounded`, `hops_allowed`, `hops_built` — what holds of every request of a chain: how many
  there are, where they go, and what they carry, whatever the upstreams answer.
* `response_rebuilt` — what reaches the job.
* `credentials_stay_iff` — the whole of it, for one request to the proxy. A request carries what it
  should exactly when the URL it starts with has no user and no password: the absolute door and every
  redirect check that, the mirror door does not.
-/

import HullCi.Proxy.Server

namespace HullCi.Proxy

open HullCi.Secrets (Bytes Digest asBytes)

/-! ### What the doors promise -/

/-- A URL of an upstream in the job's grant: at its origin, and below its base. -/
structure Allowed (s : ProxyState) (grant : Grant) (upstream : Upstream) (url : Url) : Prop where
  configured : upstream ∈ s.allowlist.upstreams
  granted : upstream.name ∈ grant.upstreams
  origin : originOf url = upstream.origin
  below : under upstream.base.url.path url.path = true

/-- A URL with no user and no password. -/
def Url.Bare (url : Url) : Prop :=
  url.username = "" ∧ url.password = none

instance (url : Url) : Decidable url.Bare := inferInstanceAs (Decidable (_ ∧ _))

section Doors

variable {s : ProxyState} {grant : Grant} {upstream : Upstream} {url : Url}

theorem allowed_of_absolute {raw : String} (granted : upstream.name ∈ grant.upstreams)
    (resolved : s.allowlist.resolveAbsolute s.crate raw = .ok (upstream, url)) :
    Allowed s grant upstream url ∧ url.Bare := by
  obtain ⟨-, -, serves, bare⟩ := Allowlist.resolveAbsolute_ok.mp resolved
  obtain ⟨configured, origin, below⟩ := Allowlist.serving_some serves
  exact ⟨⟨configured, granted, origin.symm, below⟩, bare⟩

theorem allowed_of_resolve {target : Target} (granted : upstream.name ∈ grant.upstreams)
    (resolved : target.resolve s = .ok (upstream, url)) : Allowed s grant upstream url := by
  cases target with
  | mirror token label tail =>
    obtain ⟨known, -, -, origin, below⟩ := Allowlist.resolve_ok.mp resolved
    exact ⟨(Allowlist.get_some.mp known).1, granted, origin, below⟩
  | absolute token raw => exact (allowed_of_absolute granted resolved).1

/-- **Every redirect goes through the allowlist again**, and through the grant. -/
theorem follow_allowed {location : String} {upstream' : Upstream} {url' : Url}
    (follows : follow s grant url location = .ok (upstream', url')) :
    Allowed s grant upstream' url' ∧ url'.Bare := by
  unfold follow at follows
  cases joined : s.crate.join url location with
  | none =>
    rw [joined] at follows
    cases follows
  | some next =>
    rw [joined] at follows
    dsimp only at follows
    cases resolved : s.allowlist.resolveAbsolute s.crate (s.crate.asStr next) with
    | error d =>
      rw [resolved] at follows
      cases follows
    | ok there =>
      obtain ⟨u, at'⟩ := there
      rw [resolved] at follows
      dsimp only at follows
      split_ifs at follows with granted
      cases follows
      exact allowed_of_absolute granted resolved

/-- What the policy half lets through is a URL the job may fetch. -/
theorem policy_allowed {grants : GrantRegistry} {now : ℕ} {req : Request}
    (passed : (policy s grants now req).2 = .ok (grant, upstream, url)) :
    Allowed s grant upstream url := by
  unfold policy at passed
  split_ifs at passed
  cases parsed : parseTarget req.uri req.headers with
  | error e =>
    rw [parsed] at passed
    cases passed
  | ok target =>
    rw [parsed] at passed
    dsimp only at passed
    cases authorised : grants.authorise s.digestSecret target.token now with
    | mk after answer =>
    cases answer with
    | error e =>
      rw [authorised] at passed
      cases passed
    | ok held =>
      rw [authorised] at passed
      dsimp only at passed
      cases checked : checkMethod req.method with
      | error d =>
        rw [checked] at passed
        cases passed
      | ok u =>
        cases resolved : target.resolve s with
        | error d =>
          rw [checked, resolved] at passed
          cases passed
        | ok there =>
          obtain ⟨u, at'⟩ := there
          rw [checked, resolved] at passed
          dsimp only at passed
          split_ifs at passed with granted
          cases passed
          exact allowed_of_resolve granted resolved

end Doors

/-! ### One turn of the loop -/

section Loop

variable (s : ProxyState) (w : World) (grant : Grant) (method : String) (headers : Headers)

/-- The turn sends a request at all: the credential is there, and the request can be built. -/
def Sends (n : ℕ) (upstream : Upstream) : Prop :=
  (method = "GET" ∨ method = "HEAD") ∧ ∃ injected, inject upstream grant (w.credential n) =
    .ok injected ∧ injected.all fun line => headerNameOk line.header

/-- What a request is built from. -/
def Built (n : ℕ) (hop : Hop) : Prop :=
  ∃ injected, Owed hop.upstream grant (w.credential n) injected ∧ hop.request.headers =
    s.client.authority hop.request.url ++ forwardedHeaders headers ++ Injected.lines injected

/-- **What a request should carry**: the job's headers that travel, and what its upstream is owed. -/
def Carries (n : ℕ) (hop : Hop) : Prop :=
  ∃ injected, Owed hop.upstream grant (w.credential n) injected ∧
    hop.request.headers = forwardedHeaders headers ++ Injected.lines injected

/-- What one turn does. -/
inductive Turned (left n : ℕ) (upstream : Upstream) (url : Url) :
    List Hop × Except Denied Response → Prop
  | unsent (unsendable : ¬ Sends w grant method n upstream) (d : Denied) :
    Turned left n upstream url ([], .error d)
  | last (hop : Hop) (at' : hop.upstream = upstream ∧ hop.request.url = url)
    (built : Built s w grant headers n hop) (sends : Sends w grant method n upstream)
    (result : Except Denied Response)
    (rebuilt : ∀ response, result = .ok response → ∃ r, response = toResponse r) :
    Turned left n upstream url ([hop], result)
  | redirected (hop : Hop) (at' : hop.upstream = upstream ∧ hop.request.url = url)
    (built : Built s w grant headers n hop) (sends : Sends w grant method n upstream)
    (less : ℕ) (fewer : left = less + 1) (location : String) (upstream' : Upstream) (url' : Url)
    (follows : follow s grant url location = .ok (upstream', url')) :
    Turned left n upstream url
      (hop :: (forwardLoop s w grant method headers less (n + 1) upstream' url').1,
        (forwardLoop s w grant method headers less (n + 1) upstream' url').2)

variable {s w grant method headers}

theorem buildRequest_ok {url : Url} {injected : Option Injected} {request : Outbound}
    (made : buildRequest s method url headers injected = .ok request) :
    (method = "GET" ∨ method = "HEAD") ∧ (injected.all fun line => headerNameOk line.header) ∧
      request.url = url ∧ request.headers =
        s.client.authority url ++ forwardedHeaders headers ++ Injected.lines injected := by
  unfold buildRequest at made
  split_ifs at made with reads named
  cases made
  exact ⟨reads, named, rfl, rfl⟩

theorem buildRequest_sent (s : ProxyState) (url : Url) (headers : Headers)
    {injected : Option Injected} (reads : method = "GET" ∨ method = "HEAD")
    (named : injected.all fun line => headerNameOk line.header) :
    ∃ request, buildRequest s method url headers injected = .ok request := by
  unfold buildRequest
  rw [if_pos reads, if_pos named]
  exact ⟨_, rfl⟩

variable (s w grant method headers) in
/-- **One turn of the loop.** -/
theorem forwardLoop_turn (left n : ℕ) (upstream : Upstream) (url : Url) :
    Turned s w grant method headers left n upstream url
      (forwardLoop s w grant method headers left n upstream url) := by
  unfold forwardLoop
  cases injects : inject upstream grant (w.credential n) with
  | error c =>
    refine .unsent ?_ _
    rintro ⟨-, injected, same, -⟩
    rw [injects] at same
    cases same
  | ok injected =>
    dsimp only
    cases builds : buildRequest s method url headers injected with
    | error d =>
      refine .unsent ?_ _
      rintro ⟨reads, injected', same, named⟩
      rw [injects] at same
      cases same
      obtain ⟨request, made⟩ := buildRequest_sent s url headers reads named
      rw [builds] at made
      cases made
    | ok request =>
      obtain ⟨reads, named, there, lines⟩ := buildRequest_ok builds
      have sends : Sends w grant method n upstream := ⟨reads, injected, injects, named⟩
      have built : Built s w grant headers n ⟨upstream, request⟩ :=
        ⟨injected, inject_owed.mp injects, by rw [lines, there]⟩
      dsimp only
      cases answered : w.answer n request with
      | error why => exact .last _ ⟨rfl, there⟩ built sends _ fun _ no => (by cases no)
      | ok response =>
        dsimp only
        cases redirects : redirectTarget response with
        | none =>
          exact .last _ ⟨rfl, there⟩ built sends _ fun _ same => ⟨response, by cases same; rfl⟩
        | some location =>
          dsimp only
          cases left with
          | zero => exact .last _ ⟨rfl, there⟩ built sends _ fun _ no => (by cases no)
          | succ less =>
            dsimp only
            cases follows : follow s grant url location with
            | error d => exact .last _ ⟨rfl, there⟩ built sends _ fun _ no => (by cases no)
            | ok next =>
              obtain ⟨upstream', url'⟩ := next
              exact .redirected _ ⟨rfl, there⟩ built sends less rfl location upstream' url' follows

/-! ### The whole chain -/

variable (s w grant method headers) in
/-- What holds of a chain of requests, whatever the upstreams answer. -/
structure Chain (left n : ℕ) (upstream : Upstream) (url : Url)
    (out : List Hop × Except Denied Response) : Prop where
  /-- one request, and one for each redirect that is left -/
  bounded : out.1.length ≤ left + 1
  allowed : ∀ hop ∈ out.1, Allowed s grant hop.upstream hop.request.url
  built : ∀ i hop, out.1[i]? = some hop → Built s w grant headers (n + i) hop
  first : ∀ hop, out.1[0]? = some hop → hop.request.url = url ∧ Sends w grant method n upstream
  later : ∀ i hop, out.1[i + 1]? = some hop → hop.request.url.Bare
  sent : Sends w grant method n upstream → out.1 ≠ []
  rebuilt : ∀ response, out.2 = .ok response → ∃ r, response = toResponse r

theorem Chain.cons {left n : ℕ} {upstream upstream' : Upstream} {url url' : Url} {hop : Hop}
    {out : List Hop × Except Denied Response} (at' : hop.upstream = upstream ∧ hop.request.url = url)
    (allowed : Allowed s grant upstream url) (built : Built s w grant headers n hop)
    (sends : Sends w grant method n upstream) (bare : url'.Bare)
    (rest : Chain s w grant method headers left (n + 1) upstream' url' out) :
    Chain s w grant method headers (left + 1) n upstream url (hop :: out.1, out.2) where
  bounded := Nat.succ_le_succ rest.bounded
  allowed := by
    refine List.forall_mem_cons.mpr ⟨?_, rest.allowed⟩
    rw [at'.1, at'.2]
    exact allowed
  built i hop' found := by
    cases i with
    | zero =>
      obtain rfl := Option.some.inj found
      exact built
    | succ i =>
      have later := rest.built i hop' found
      rwa [Nat.add_assoc, Nat.add_comm 1 i] at later
  first hop' found := by
    obtain rfl := Option.some.inj found
    exact ⟨at'.2, sends⟩
  later i hop' found := by
    cases i with
    | zero =>
      rw [(rest.first hop' found).1]
      exact bare
    | succ i => exact rest.later i hop' found
  sent _ := List.cons_ne_nil _ _
  rebuilt := rest.rebuilt

theorem Chain.one {left n : ℕ} {upstream : Upstream} {url : Url} {hop : Hop}
    {result : Except Denied Response} (at' : hop.upstream = upstream ∧ hop.request.url = url)
    (allowed : Allowed s grant upstream url) (built : Built s w grant headers n hop)
    (sends : Sends w grant method n upstream)
    (rebuilt : ∀ response, result = .ok response → ∃ r, response = toResponse r) :
    Chain s w grant method headers left n upstream url ([hop], result) where
  bounded := Nat.succ_le_succ (Nat.zero_le left)
  allowed hop' member := by
    obtain rfl := List.mem_singleton.mp member
    rw [at'.1, at'.2]
    exact allowed
  built i hop' found := by
    cases i with
    | zero =>
      obtain rfl := Option.some.inj found
      exact built
    | succ i => cases found
  first hop' found := by
    obtain rfl := Option.some.inj found
    exact ⟨at'.2, sends⟩
  later i hop' found := by cases found
  sent _ := List.cons_ne_nil _ _
  rebuilt := rebuilt

variable (s w grant method headers) in
/-- **What holds of every chain**: upstream, URL and credential change together at each hop. -/
theorem chain_forwardLoop (left n : ℕ) (upstream : Upstream) (url : Url)
    (allowed : Allowed s grant upstream url) :
    Chain s w grant method headers left n upstream url
      (forwardLoop s w grant method headers left n upstream url) := by
  induction left using Nat.strong_induction_on generalizing n upstream url with
  | _ left ih =>
    have turned := forwardLoop_turn s w grant method headers left n upstream url
    generalize forwardLoop s w grant method headers left n upstream url = out at turned ⊢
    cases turned with
    | unsent unsendable d =>
      exact ⟨Nat.zero_le _, fun _ member => (by cases member), fun _ _ found => (by cases found),
        fun _ found => (by cases found), fun _ _ found => (by cases found),
        fun sends => absurd sends unsendable, fun _ no => (by cases no)⟩
    | last hop at' built sends result rebuilt => exact .one at' allowed built sends rebuilt
    | redirected hop at' built sends less fewer location upstream' url' follows =>
      obtain ⟨allowed', bare⟩ := follow_allowed follows
      rw [fewer]
      exact .cons at' allowed built sends bare
        (ih less (by omega) (n + 1) upstream' url' allowed')

end Loop

/-! ### One request to the proxy -/

theorem names_filterMap {names : List String} {headers : Headers} :
    ∀ h ∈ names.filterMap fun name => (headers.get name).map fun value => (name, value),
      h.1 ∈ names := by
  intro h member
  obtain ⟨name, listed, found⟩ := List.mem_filterMap.mp member
  obtain ⟨value, -, rfl⟩ := Option.map_eq_some_iff.mp found
  exact listed

section Handle

variable {s : ProxyState} {w : World} {grants : GrantRegistry} {now : ℕ} {req : Request}

theorem handle_refused {d : Denied} (refused : (policy s grants now req).2 = .error d) :
    (handle s w grants now req).hops = [] ∧ (handle s w grants now req).response = refuse d := by
  unfold handle
  cases passed : policy s grants now req with
  | mk after answer =>
    obtain rfl : answer = .error d := (congrArg Prod.snd passed).symm.trans refused
    exact ⟨rfl, rfl⟩

theorem handle_forwarded {grant : Grant} {upstream : Upstream} {url : Url}
    (granted : (policy s grants now req).2 = .ok (grant, upstream, url)) :
    (handle s w grants now req).hops =
        (forward s w grant upstream url req.method req.headers).1 ∧
      ((∃ d, (handle s w grants now req).response = refuse d) ∨
        ∃ response, (forward s w grant upstream url req.method req.headers).2 = .ok response ∧
          (handle s w grants now req).response = response) := by
  unfold handle
  cases passed : policy s grants now req with
  | mk after answer =>
    obtain rfl : answer = .ok (grant, upstream, url) := (congrArg Prod.snd passed).symm.trans granted
    dsimp only
    cases forwarded : forward s w grant upstream url req.method req.headers with
    | mk hops result =>
      cases result with
      | error d => exact ⟨rfl, .inl ⟨d, rfl⟩⟩
      | ok response => exact ⟨rfl, .inr ⟨response, rfl, rfl⟩⟩

theorem refuse_headers (d : Denied) : ∀ h ∈ (refuse d).headers, h.1 ∈ allowedResponseHeaders := by
  intro h member
  obtain rfl := List.mem_singleton.mp member
  exact List.mem_cons_self

/-- **What reaches the job is rebuilt from the list**: no redirect target and no cookie. -/
theorem response_rebuilt :
    ∀ h ∈ (handle s w grants now req).response.headers, h.1 ∈ allowedResponseHeaders := by
  cases answer : (policy s grants now req).2 with
  | error d =>
    rw [(handle_refused answer).2]
    exact refuse_headers d
  | ok found =>
    obtain ⟨grant, upstream, url⟩ := found
    obtain ⟨-, ⟨d, told⟩ | ⟨response, forwarded, told⟩⟩ := handle_forwarded (w := w) answer
    · rw [told]
      exact refuse_headers d
    · have chain := chain_forwardLoop s w grant req.method req.headers s.maxRedirects 0 upstream
        url (policy_allowed answer)
      obtain ⟨r, rebuilt⟩ := chain.rebuilt response forwarded
      rw [told, rebuilt]
      exact names_filterMap

end Handle

/-- A request built from a URL carries what it should exactly when the client adds nothing. -/
theorem carries_iff {s : ProxyState} {w : World} {grant : Grant} {headers : Headers} {n : ℕ}
    {hop : Hop} (documented : s.client.Documented) (built : Built s w grant headers n hop) :
    Carries w grant headers n hop ↔ hop.request.url.Bare := by
  obtain ⟨injected, owed, lines⟩ := built
  constructor
  · rintro ⟨injected', owed', lines'⟩
    have same := inject_owed.mpr owed
    rw [inject_owed.mpr owed'] at same
    obtain rfl := Except.ok.inj same
    rw [lines, List.append_assoc] at lines'
    exact (documented _).mp (List.append_left_eq_self.mp lines')
  · intro bare
    refine ⟨injected, owed, ?_⟩
    rw [lines, (documented _).mpr bare, List.nil_append]

/-- **Credentials stay on the allowlist.** For every request and every behaviour of the upstreams
and of the credential source:

* a refused request sends nothing, and no response header outside the list reaches the job;
* a request that passes the policy half sends at most one request and one for each redirect, each to
  a URL at the origin and below the base of an upstream in the grant;
* each of them carries the job's headers that travel and, exactly when the upstream of its own hop is
  configured with a credential, that credential for the grant's tenant, and nothing else, if and only
  if the URL the chain starts with is bare or nothing is sent at all. -/
theorem credentials_stay_iff (s : ProxyState) (w : World) (grants : GrantRegistry) (now : ℕ)
    (req : Request) (documented : s.client.Documented) :
    let served := handle s w grants now req
    (∀ d, (policy s grants now req).2 = .error d → served.hops = []) ∧
      (∀ grant upstream url, (policy s grants now req).2 = .ok (grant, upstream, url) →
        served.hops.length ≤ s.maxRedirects + 1 ∧
          (∀ hop ∈ served.hops, Allowed s grant hop.upstream hop.request.url) ∧
          ((∀ n hop, served.hops[n]? = some hop → Carries w grant req.headers n hop) ↔
            (Sends w grant req.method 0 upstream → url.Bare))) ∧
      ∀ h ∈ served.response.headers, h.1 ∈ allowedResponseHeaders := by
  intro served
  refine ⟨fun d refused => (handle_refused refused).1, fun grant upstream url granted => ?_,
    response_rebuilt⟩
  have chain := chain_forwardLoop s w grant req.method req.headers s.maxRedirects 0 upstream url
    (policy_allowed granted)
  have sent : served.hops = (forward s w grant upstream url req.method req.headers).1 :=
    (handle_forwarded granted).1
  rw [sent]
  refine ⟨chain.bounded, chain.allowed, fun all sends => ?_, fun start i hop found => ?_⟩
  · obtain ⟨hop, rest, begins⟩ := List.exists_cons_of_ne_nil (chain.sent sends)
    have here : (forward s w grant upstream url req.method req.headers).1[0]? = some hop := by
      unfold forward
      rw [begins]
      rfl
    rw [← (chain.first hop here).1]
    exact (carries_iff documented (chain.built 0 hop here)).mp (all 0 hop here)
  · have built := chain.built i hop found
    rw [Nat.zero_add] at built
    refine (carries_iff documented built).mpr ?_
    cases i with
    | zero =>
      obtain ⟨there, sends⟩ := chain.first hop found
      rw [there]
      exact start sends
    | succ i => exact chain.later i hop found

/-! ### A public registry -/

def registryUrl : Url where
  scheme := "https"
  username := ""
  password := none
  host := some "registry.npmjs.org"
  port := none
  path := "/"
  query := none
  fragment := none

/-- A public upstream. -/
def publicRegistry : Upstream where
  name := "npm"
  base := ⟨registryUrl, .inl rfl, rfl, ⟨rfl, rfl⟩, ⟨rfl, rfl⟩, by decide⟩
  credential := none
  auth := .bearer

/-- A tail that spells an authority: two slashes of different kinds after the base's own scheme. -/
def spelledAuthority : String := "https:/\\u:p@registry.npmjs.org/x"

/-- Joining at the two tails below. -/
def registryCrate : UrlCrate where
  parse _ := .error "relative URL without a base"
  join base tail :=
    if tail = "express" then some { base with path := "/express" }
    else if tail = spelledAuthority then
      some { base with username := "u", password := some "p", path := "/x" }
    else none
  asStr _ := ""
  setPath url path := { url with path }

/-- A client that turns a user and a password into basic authentication. -/
def basicClient : HttpClient where
  authority url :=
    if url.Bare then []
    else [("authorization", asBytes ("Basic " ++
      base64 (asBytes (url.username ++ ":" ++ url.password.getD ""))))]

theorem basicClient_documented : basicClient.Documented := by
  intro url
  show (if url.Bare then [] else _) = [] ↔ url.Bare
  by_cases bare : url.Bare
  · rw [if_pos bare]
    exact ⟨fun _ => bare, fun _ => rfl⟩
  · rw [if_neg bare]
    exact ⟨fun no => absurd no (List.cons_ne_nil _ _), fun yes => absurd yes bare⟩

def registryProxy : ProxyState where
  crate := registryCrate
  client := basicClient
  digestSecret _ := Vector.replicate 32 0
  allowlist := ⟨[publicRegistry], List.pairwise_singleton _ _⟩

/-- Upstreams that answer, and no credentials. -/
def calmWorld : World where
  credential _ := noCredentials
  answer _ _ := .ok { status := 200, headers := [], body := [] }

/-- One job's grant, for the public registry. -/
def npmGrant : Grant where
  grantId := Vector.replicate 16 0
  tenant := "acme"
  jobId := "job-1"
  upstreams := ["npm"]
  expiresAt := 100
  rate := ⟨10, 10⟩

def npmGrants : GrantRegistry :=
  (∅ : GrantRegistry).insert npmGrant.grantId
    ⟨npmGrant, Vector.replicate 32 0, false, .new npmGrant.rate⟩

/-- A job asks for a tail of the registry through the mirror. -/
def mirrorRequest (tail : String) : Request where
  method := "GET"
  uri :=
    { absolute := false
      text := ""
      pathAndQuery := some ("/j/hpkg_" ++ String.ofList (List.replicate 32 '0') ++ "." ++
        String.ofList (List.replicate 64 '0') ++ "/u/npm/" ++ tail) }
  headers := [("accept", asBytes "*/*"), ("cookie", asBytes "id=1")]

/-- The grant of the examples. -/
def someToken : String :=
  "hpkg_" ++ String.ofList (List.replicate 32 '0') ++ "." ++ String.ofList (List.replicate 64 '0')

theorem someToken_plain : '/' ∉ someToken.toList := by
  unfold someToken
  simp

theorem parse_npm (tail : String) :
    parseTarget (mirrorRequest tail).uri (mirrorRequest tail).headers =
      .ok (.mirror someToken "npm" tail) := by
  have spelled : (mirrorRequest tail).uri = ⟨false, "", some ("/j/" ++ (someToken ++ ("/" ++
      ("u/" ++ ("npm" ++ ("/" ++ tail))))))⟩ := by
    unfold mirrorRequest someToken
    simp only [String.append_assoc]
    congr 2
  rw [spelled]
  exact parseTarget_mirror someToken_plain (by decide) tail "" _

theorem npm_allowed :
    (policy registryProxy npmGrants 0 (mirrorRequest "express")).2 =
        .ok (npmGrant, publicRegistry, { registryUrl with path := "/express" }) ∧
      (policy registryProxy npmGrants 0 (mirrorRequest spelledAuthority)).2 =
        .ok (npmGrant, publicRegistry,
          { registryUrl with username := "u", password := some "p", path := "/x" }) := by
  unfold policy
  rw [if_neg (by decide), if_neg (by decide), parse_npm, parse_npm]
  decide +kernel

/-- A plain fetch is allowed, and its one request carries what it should. -/
theorem credentials_stay_iff_once :
    ∃ hop, (handle registryProxy calmWorld npmGrants 0 (mirrorRequest "express")).hops[0]? =
      some hop ∧ Carries calmWorld npmGrant (mirrorRequest "express").headers 0 hop := by
  have carries := ((credentials_stay_iff registryProxy calmWorld npmGrants 0
    (mirrorRequest "express") basicClient_documented).2.1 npmGrant publicRegistry
      { registryUrl with path := "/express" } npm_allowed.1).2.2.mpr fun _ => ⟨rfl, rfl⟩
  have one : (handle registryProxy calmWorld npmGrants 0 (mirrorRequest "express")).hops.length =
      1 := by
    rw [(handle_forwarded npm_allowed.1).1]
    decide +kernel
  have here := List.getElem?_eq_getElem (i := 0) (by rw [one]; exact Nat.one_pos)
  exact ⟨_, here, carries 0 _ here⟩

/-- **A job authenticates to a public registry by itself.** The mirror door lets the tail through,
and the one request that is sent carries an authorization that is no credential of the upstream. -/
theorem job_authenticates :
    (handle registryProxy calmWorld npmGrants 0 (mirrorRequest spelledAuthority)).hops.map
        (fun hop => (hop.upstream.credential, hop.request.headers)) =
      [(none, [("authorization", asBytes "Basic dTpw"), ("accept", asBytes "*/*")])] ∧
    "authorization" ∉ requestHeaders := by
  constructor
  · rw [(handle_forwarded npm_allowed.2).1]
    decide +kernel
  · decide +kernel

end HullCi.Proxy
