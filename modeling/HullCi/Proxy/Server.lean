/-
**The HTTP surface: the one endpoint a sandbox may reach.**

The loop of `forward` is a recursion on the redirects that are left. What is outside (the HTTP
client, the upstreams, the credential source) is `HttpClient` and `World`; an answer may depend on
everything that was sent and on how many hops were made.
-/

import HullCi.Proxy.Credentials
import HullCi.Proto.Text

namespace HullCi.Proxy

open HullCi.Proto (trim)
open HullCi.Secrets (Bytes Digest asBytes)

/-! ### Requests and responses -/

/-- Header lines in order; the names are in lower case. -/
abbrev Headers := List (String × Bytes)

/-- `HeaderMap::get`: the first value under a name. -/
def Headers.get (headers : Headers) (name : String) : Option Bytes :=
  (headers.find? fun h => h.1 = name).map Prod.snd

/-- `HeaderValue::to_str`: visible ASCII only. -/
def headerStr (value : Bytes) : Option String :=
  if value.all fun b => decide (32 ≤ b.toNat ∧ b.toNat < 127 ∨ b.toNat = 9) then
    some (String.ofList (value.map fun b => Char.ofNat b.toNat))
  else none

/-- A request URI. -/
structure Uri where
  /-- a scheme and an authority are both there -/
  absolute : Bool
  text : String
  pathAndQuery : Option String
  deriving DecidableEq, Repr

/-- What a job sends. -/
structure Request where
  method : String
  uri : Uri
  headers : Headers
  deriving DecidableEq, Repr

/-- A response, from an upstream or to the job. -/
structure Response where
  status : ℕ
  headers : Headers
  body : Bytes
  deriving DecidableEq, Repr

/-- What is handed to an upstream. -/
structure Outbound where
  method : String
  url : Url
  headers : Headers
  deriving DecidableEq, Repr

/-- What is used of the HTTP client besides sending: the lines it puts on a request because of the
URL alone. -/
structure HttpClient where
  authority : Url → Headers

/-- The client authenticates by itself for a URL that carries a user or a password, and for no
other. -/
def HttpClient.Documented (client : HttpClient) : Prop :=
  ∀ url, client.authority url = [] ↔ url.username = "" ∧ url.password = none

/-- What is outside, hop by hop. -/
structure World where
  /-- the credential source at the `n`-th hop -/
  credential : ℕ → UpstreamCredentials
  /-- the upstream at the `n`-th hop; an error is why it could not be reached -/
  answer : ℕ → Outbound → Except String Response

/-- Request headers forwarded to an upstream. Everything else is dropped. -/
def requestHeaders : List String :=
  ["accept", "accept-encoding", "user-agent", "if-none-match", "if-modified-since", "range",
    "npm-command", "npm-session"]

/-- Response headers returned to the job. Everything else is dropped. -/
def allowedResponseHeaders : List String :=
  ["content-type", "content-length", "content-encoding", "etag", "last-modified", "cache-control",
    "accept-ranges", "content-range", "vary"]

/-- How many redirects the proxy follows. -/
def maxRedirects : ℕ := 5

/-- What a request is served with. -/
structure ProxyState where
  crate : UrlCrate
  client : HttpClient
  digestSecret : Bytes → Digest
  allowlist : Allowlist
  maxRedirects : ℕ := maxRedirects

/-! ### Targets -/

/-- What a request resolved to before any policy ran. -/
inductive Target where
  | mirror (token label tail : String)
  | absolute (token url : String)
  deriving DecidableEq, Repr

/-- A text without the mark it begins with. -/
def stripMark (mark s : String) : Option String :=
  if mark.toList.isPrefixOf s.toList then some (String.ofList (s.toList.drop mark.toList.length))
  else none

/-- The two sides of the first slash. -/
def splitAtSlash (s : String) : Option (String × String) :=
  if '/' ∈ s.toList then
    some (String.ofList (s.toList.takeWhile (· ≠ '/')),
      String.ofList ((s.toList.dropWhile (· ≠ '/')).drop 1))
  else none

/-- The grant a header carries. -/
def bearer (headers : Headers) : Option String :=
  ["proxy-authorization", "authorization"].findSome? fun name => do
    let v ← (headers.get name).bind headerStr
    let rest ← (stripMark "Bearer " v).or (stripMark "bearer " v)
    return trim rest

def notProxyUrl : String :=
  "not a package-proxy URL (expected /j/<grant>/u/<upstream>/…)"

def parseTarget (uri : Uri) (headers : Headers) : Except String Target :=
  if uri.absolute then
    match bearer headers with
    | none => .error "absolute-form request without a Proxy-Authorization grant"
    | some token => .ok (.absolute token uri.text)
  else
    match stripMark "/j/" (uri.pathAndQuery.getD "/") with
    | none => .error notProxyUrl
    | some rest =>
      match splitAtSlash rest with
      | none => .error notProxyUrl
      | some (token, rest) =>
        match stripMark "u/" rest with
        | none => .error notProxyUrl
        | some rest =>
          match splitAtSlash rest with
          | some (label, tail) => .ok (.mirror token label tail)
          | none => .ok (.mirror token rest "")

theorem stripMark_append (mark rest : String) : stripMark mark (mark ++ rest) = some rest := by
  unfold stripMark
  rw [String.toList_append, if_pos (List.isPrefixOf_iff_prefix.mpr (List.prefix_append _ _)),
    List.drop_left, String.ofList_toList]

theorem splitAtSlash_append {front : String} (plain : '/' ∉ front.toList) (back : String) :
    splitAtSlash (front ++ ("/" ++ back)) = some (front, back) := by
  have spelled : (front ++ ("/" ++ back)).toList = front.toList ++ '/' :: back.toList := by
    rw [String.toList_append, String.toList_append]
    rfl
  have before : ∀ c ∈ front.toList, decide (c ≠ '/') = true := by
    intro c member
    exact decide_eq_true fun same => plain (same ▸ member)
  unfold splitAtSlash
  rw [spelled, if_pos (List.mem_append_right _ List.mem_cons_self),
    List.takeWhile_append_of_pos before, List.dropWhile_append_of_pos before]
  simp

theorem parseTarget_mirror {token label : String} (token_plain : '/' ∉ token.toList)
    (label_plain : '/' ∉ label.toList) (tail text : String) (headers : Headers) :
    parseTarget
      ⟨false, text, some ("/j/" ++ (token ++ ("/" ++ ("u/" ++ (label ++ ("/" ++ tail))))))⟩
      headers = .ok (.mirror token label tail) := by
  unfold parseTarget
  simp only [Option.getD_some, stripMark_append, splitAtSlash_append token_plain,
    splitAtSlash_append label_plain, Bool.false_eq_true, if_false]

def Target.token : Target → String
  | .mirror token _ _ => token
  | .absolute token _ => token

/-- The door a target goes through. -/
def Target.resolve (s : ProxyState) : Target → Except DenyReason (Upstream × Url)
  | .mirror _ label tail => s.allowlist.resolve s.crate label tail
  | .absolute _ url => s.allowlist.resolveAbsolute s.crate url

/-! ### Refusals -/

/-- A refusal: what the audit is told, and what the job is told. -/
structure Denied where
  status : ℕ
  reason : String
  publicText : String
  deriving DecidableEq, Repr

namespace Denied

/-- A refusal whose rule is safe to hand back verbatim. -/
def new (status : ℕ) (reason : String) : Denied where
  status := status
  reason := reason
  publicText := reason

/-- What a job is told of an upstream it may not reach. -/
def upstreamUnavailable : String :=
  "that upstream is not available to this job"

def ofDeny (d : DenyReason) : Denied :=
  match d with
  | .methodNotAllowed _ => new 405 d.text
  | .unknownUpstream _ | .notGranted _ | .hostNotAllowlisted _ =>
    { status := 403, reason := d.text, publicText := upstreamUnavailable }
  | _ => new 403 d.text

def ofGrant (g : GrantError) : Denied :=
  match g with
  | .rateLimited _ _ => new 429 g.text
  | _ => new 401 g.text

def ofCredential (c : CredentialError) : Denied :=
  new (if c.isPolicyRefusal then 403 else 502) c.text

end Denied

/-- A plain answer. -/
def text (status : ℕ) (body : String) : Response where
  status := status
  headers := [("content-type", asBytes "text/plain; charset=utf-8")]
  body := asBytes body

/-- What the job is told of a refusal. -/
def refuse (d : Denied) : Response :=
  text d.status ("hull-ci package proxy: " ++ d.publicText ++ "\n")

/-! ### The outbound request -/

/-- The job's headers that travel. -/
def forwardedHeaders (headers : Headers) : Headers :=
  requestHeaders.filterMap fun name => (headers.get name).map fun value => (name, value)

/-- A credential's line. -/
def Injected.lines : Option Injected → Headers
  | none => []
  | some injected => [(injected.header, injected.value)]

/-- A character of a header name. -/
def isTokenChar (c : Char) : Bool :=
  c.isAlphanum || "!#$%&'*+-.^_|~".toList.contains c || c.val == 0x60

def headerNameOk (name : String) : Bool :=
  !name.isEmpty && name.toList.all isTokenChar

def hostOf (url : Url) : String :=
  url.host.getD "<none>"

def unreachable (url : Url) (why : String) : Denied :=
  .new 502 ("upstream `" ++ hostOf url ++ "` could not be reached: " ++ why)

/-- The first half of `send`: the request as it is handed to the client. -/
def buildRequest (s : ProxyState) (method : String) (url : Url) (headers : Headers)
    (injected : Option Injected) : Except Denied Outbound :=
  if method = "GET" ∨ method = "HEAD" then
    if injected.all fun line => headerNameOk line.header then
      .ok { method, url, headers :=
        s.client.authority url ++ forwardedHeaders headers ++ Injected.lines injected }
    else .error (unreachable url "request failed")
  else .error (.ofDeny (.methodNotAllowed method))

/-- Where a response redirects to. -/
def redirectTarget (response : Response) : Option String :=
  if 300 ≤ response.status ∧ response.status < 400 then
    (response.headers.get "location").bind headerStr
  else none

/-- Rebuild the response headers from the list. Never a copy-and-remove. -/
def responseHeaders (upstream : Headers) : Headers :=
  allowedResponseHeaders.filterMap fun name => (upstream.get name).map fun value => (name, value)

def toResponse (upstream : Response) : Response :=
  { upstream with headers := responseHeaders upstream.headers }

/-- One outbound request, and the upstream it was paired with. -/
structure Hop where
  upstream : Upstream
  request : Outbound
  deriving DecidableEq

/-- The second half of the loop: where a redirect may lead. -/
def follow (s : ProxyState) (grant : Grant) (url : Url) (location : String) :
    Except Denied (Upstream × Url) :=
  match s.crate.join url location with
  | none => .error (.new 502 ("upstream sent an unusable redirect to `" ++ location ++ "`"))
  | some next =>
    match s.allowlist.resolveAbsolute s.crate (s.crate.asStr next) with
    | .error d => .error (.ofDeny d)
    | .ok (upstream, url) =>
      if upstream.name ∈ grant.upstreams then .ok (upstream, url)
      else .error (.ofDeny (.notGranted upstream.name))

/-- The loop of `forward`: `left` redirects may still be followed, `n` hops were made. -/
def forwardLoop (s : ProxyState) (w : World) (grant : Grant) (method : String) (headers : Headers) :
    ℕ → ℕ → Upstream → Url → List Hop × Except Denied Response
  | left, n, upstream, url =>
    match inject upstream grant (w.credential n) with
    | .error c => ([], .error (.ofCredential c))
    | .ok injected =>
      match buildRequest s method url headers injected with
      | .error d => ([], .error d)
      | .ok request =>
        match w.answer n request with
        | .error why => ([⟨upstream, request⟩], .error (unreachable url why))
        | .ok response =>
          match redirectTarget response with
          | none => ([⟨upstream, request⟩], .ok (toResponse response))
          | some location =>
            match left with
            | 0 => ([⟨upstream, request⟩], .error (.new 502
                ("upstream redirected more than " ++ toString s.maxRedirects ++ " times")))
            | left + 1 =>
              match follow s grant url location with
              | .error d => ([⟨upstream, request⟩], .error d)
              | .ok (upstream', url') =>
                let (hops, result) :=
                  forwardLoop s w grant method headers left (n + 1) upstream' url'
                (⟨upstream, request⟩ :: hops, result)

/-- Make the outbound request, following allowlisted redirects: what was sent, and the answer. -/
def forward (s : ProxyState) (w : World) (grant : Grant) (upstream : Upstream) (url : Url)
    (method : String) (headers : Headers) : List Hop × Except Denied Response :=
  forwardLoop s w grant method headers s.maxRedirects 0 upstream url

/-! ### One request -/

/-- The policy half of `handle`: the grant, and what may be fetched under it. -/
def policy (s : ProxyState) (grants : GrantRegistry) (now : ℕ) (req : Request) :
    GrantRegistry × Except Denied (Grant × Upstream × Url) :=
  if req.method = "CONNECT" then
    (grants, .error (.new 405 ("CONNECT is not served: this proxy terminates requests so it can "
      ++ "authenticate outbound and record what was fetched (§14.3, D§7.4)")))
  else
    match parseTarget req.uri req.headers with
    | .error e => (grants, .error (.new 400 e))
    | .ok target =>
      match grants.authorise s.digestSecret target.token now with
      | (grants, .error e) => (grants, .error (.ofGrant e))
      | (grants, .ok grant) =>
        (grants, match checkMethod req.method, target.resolve s with
          | .error d, _ => .error (.ofDeny d)
          | .ok (), .error d => .error (.ofDeny d)
          | .ok (), .ok (upstream, url) =>
            if upstream.name ∈ grant.upstreams then .ok (grant, upstream, url)
            else .error (.ofDeny (.notGranted upstream.name)))

/-- What a request came to: the registry after it, what was sent, and what the job is told. -/
structure Served where
  grants : GrantRegistry
  hops : List Hop
  response : Response

/-- Serve one request. -/
def handle (s : ProxyState) (w : World) (grants : GrantRegistry) (now : ℕ) (req : Request) :
    Served :=
  match policy s grants now req with
  | (grants, .error d) => ⟨grants, [], refuse d⟩
  | (grants, .ok (grant, upstream, url)) =>
    match forward s w grant upstream url req.method req.headers with
    | (hops, .error d) => ⟨grants, hops, refuse d⟩
    | (hops, .ok response) => ⟨grants, hops, response⟩

end HullCi.Proxy
