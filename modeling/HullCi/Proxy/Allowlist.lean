/-
**The allowlist: which upstreams exist, and how a request becomes an upstream URL.**

Parsing, joining and printing of URLs are the `url` crate's (`UrlCrate`); the screens are here. An
`Allowlist` is a closed set of upstreams in the order of their labels.

* `resolve_ok`, `resolveAbsolute_ok` — what has been checked of a URL that either door accepts.
-/

import HullCi.Secrets.Context
import Mathlib.Data.List.Nodup
import Mathlib.Data.String.Basic
import Mathlib.Order.Basic

namespace HullCi.Proxy

open HullCi.Secrets (asBytes)

/-! ### URLs -/

/-- A parsed URL, as its accessors read it. -/
structure Url where
  scheme : String
  username : String
  password : Option String
  host : Option String
  /-- the port, where it is not the scheme's own -/
  port : Option ℕ
  path : String
  query : Option String
  fragment : Option String
  deriving DecidableEq, Repr

/-- What is used of the `url` crate. -/
structure UrlCrate where
  /-- `Url::parse`; an error is its text -/
  parse : String → Except String Url
  /-- `Url::join` -/
  join : Url → String → Option Url
  /-- `Url::as_str` -/
  asStr : Url → String
  /-- `Url::set_path` -/
  setPath : Url → String → Url

/-- The port of a scheme that has one of its own. -/
def defaultPort : String → Option ℕ
  | "http" | "ws" => some 80
  | "https" | "wss" => some 443
  | "ftp" => some 21
  | _ => none

def Url.portOrKnownDefault (url : Url) : Option ℕ :=
  url.port.or (defaultPort url.scheme)

/-- ASCII letters in lower case. -/
def toAsciiLowercase (s : String) : String :=
  String.ofList (s.toList.map Char.toLower)

/-- Scheme, host and port: what must be preserved across a join. -/
def originOf (url : Url) : String × String × ℕ :=
  (toAsciiLowercase url.scheme, toAsciiLowercase (url.host.getD ""), url.portOrKnownDefault.getD 0)

def hostPort (url : Url) : String :=
  match url.port with
  | some p => url.host.getD "" ++ ":" ++ toString p
  | none => url.host.getD ""

/-! ### Upstreams -/

/-- How the proxy authenticates to one upstream. -/
inductive AuthScheme where
  | bearer
  | basic (user : String)
  | header (name : String)
  deriving DecidableEq

inductive AllowlistError where
  | badLabel (label : String)
  | badBase (url detail : String)
  | duplicate (label : String)
  deriving DecidableEq

/-- Why a request was refused. -/
inductive DenyReason where
  | unknownUpstream (label : String)
  | notGranted (label : String)
  | notAbsolute (raw : String)
  | hostNotAllowlisted (host : String)
  | pathEscape (path : String)
  | originEscape (url : String)
  | methodNotAllowed (method : String)
  deriving DecidableEq, Repr

/-- The text of a refusal. -/
def DenyReason.text : DenyReason → String
  | .unknownUpstream label => "no upstream named `" ++ label ++ "` is allowlisted"
  | .notGranted label => "upstream `" ++ label ++ "` is not in this job's grant"
  | .notAbsolute raw => "`" ++ raw ++ "` is not an absolute URL"
  | .hostNotAllowlisted host => "host `" ++ host ++ "` is not allowlisted"
  | .pathEscape path => "path `" ++ path ++ "` escapes the upstream's base path"
  | .originEscape url => "resolved URL `" ++ url ++ "` left the upstream's origin"
  | .methodNotAllowed method =>
    "method `" ++ method ++ "` is not permitted; a package proxy resolves, it does not publish"

/-- A base URL, as it is after `parseBase`. -/
structure Base where
  url : Url
  https : url.scheme = "https" ∨ url.scheme = "http"
  hosted : url.host.isSome = true
  bare : url.username = "" ∧ url.password = none
  plain : url.query = none ∧ url.fragment = none
  slashed : url.path.toList.getLast? = some '/'
  deriving DecidableEq

/-- One configured upstream. -/
structure Upstream where
  /-- the label a job names -/
  name : String
  base : Base
  /-- the name of the tenant secret that holds the credential -/
  credential : Option String
  auth : AuthScheme
  deriving DecidableEq

def Upstream.origin (u : Upstream) : String × String × ℕ :=
  originOf u.base.url

def validatedLabel (label : String) : Except AllowlistError String :=
  let small (c : Char) : Bool := c.isLower || c.isDigit
  let ok := !label.isEmpty && decide ((asBytes label).length ≤ 64) &&
    label.toList.head?.any small &&
    label.toList.all fun c => small c || c == '.' || c == '_' || c == '-'
  if ok then .ok label else .error (.badLabel label)

/-- Parse and normalise an upstream's base URL: no userinfo, no query, and a trailing slash. -/
def parseBase (crate : UrlCrate) (raw : String) : Except AllowlistError Base :=
  match crate.parse raw with
  | .error e => .error (.badBase raw e)
  | .ok parsed =>
    if ¬ (parsed.scheme = "https" ∨ parsed.scheme = "http") then
      .error (.badBase raw "scheme must be https or http")
    else if parsed.host = none then .error (.badBase raw "no host")
    else if parsed.username ≠ "" ∨ parsed.password.isSome = true then
      .error (.badBase raw "credentials belong in the secret broker, not in the base URL")
    else if parsed.query.isSome = true ∨ parsed.fragment.isSome = true then
      .error (.badBase raw "a base URL may not carry a query or fragment")
    else
      let url := if parsed.path.toList.getLast? = some '/' then parsed
        else crate.setPath parsed (parsed.path ++ "/")
      if fits : (url.scheme = "https" ∨ url.scheme = "http") ∧ url.host.isSome = true ∧
          (url.username = "" ∧ url.password = none) ∧ (url.query = none ∧ url.fragment = none) ∧
          url.path.toList.getLast? = some '/' then
        .ok ⟨url, fits.1, fits.2.1, fits.2.2.1, fits.2.2.2.1, fits.2.2.2.2⟩
      -- `set_path` changes nothing but the path, so this is not reached
      else .error (.badBase raw "")

/-- A public, unauthenticated upstream. -/
def Upstream.public (crate : UrlCrate) (name base : String) : Except AllowlistError Upstream := do
  let name ← validatedLabel name
  let base ← parseBase crate base
  return { name, base, credential := none, auth := .bearer }

/-- An upstream whose credential is the named tenant secret. -/
def Upstream.authenticated (crate : UrlCrate) (name base credential : String) (auth : AuthScheme) :
    Except AllowlistError Upstream := do
  let name ← validatedLabel name
  let base ← parseBase crate base
  return { name, base, credential := some credential, auth }

/-! ### The allowlist -/

/-- The closed set of upstreams of a deployment, in the order of their labels. -/
structure Allowlist where
  upstreams : List Upstream
  ordered : upstreams.Pairwise fun u v => u.name < v.name

namespace Allowlist

def get (list : Allowlist) (label : String) : Option Upstream :=
  list.upstreams.find? fun u => u.name = label

end Allowlist

/-! ### The screens -/

/-- Whether a text holds another. -/
def holds (needle : List Char) : List Char → Bool
  | [] => needle.isEmpty
  | c :: rest => needle.isPrefixOf (c :: rest) || holds needle rest

/-- The value of two characters as `u8::from_str_radix` reads them, a sign allowed. -/
def fromStrRadix (high low : UInt8) : Option UInt8 := do
  let digit (b : UInt8) : Option ℕ :=
    if 48 ≤ b.toNat ∧ b.toNat ≤ 57 then some (b.toNat - 48)
    else if 97 ≤ b.toNat ∧ b.toNat ≤ 102 then some (b.toNat - 87)
    else if 65 ≤ b.toNat ∧ b.toNat ≤ 70 then some (b.toNat - 55)
    else none
  let low ← digit low
  if high = 43 then
    return UInt8.ofNat low
  else
    let high ← digit high
    return UInt8.ofNat (16 * high + low)

/-- `%XX` escapes, decoded once. -/
def decodeBytes : List UInt8 → Option (List UInt8)
  | [] => some []
  | b :: rest =>
    if b = 37 then
      match rest with
      | high :: low :: rest => do
        let byte ← fromStrRadix high low
        let decoded ← decodeBytes rest
        return byte :: decoded
      | _ => none
    else do
      let decoded ← decodeBytes rest
      return b :: decoded

def percentDecode (s : String) : Option String := do
  let decoded ← decodeBytes (asBytes s)
  String.fromUTF8? decoded.toByteArray

/-- A separator of path segments, in either spelling. -/
def isSlash (c : Char) : Bool :=
  c == '/' || c == '\\'

/-- One view of a tail: no `..` between separators, and no control character. -/
def viewClean (view : String) : Bool :=
  ((view.toList.splitOnP isSlash).all fun seg => seg != "..".toList && seg != "%2e%2e".toList) &&
    (asBytes view).all fun b => decide (¬ (b.toNat < 32 ∨ b.toNat = 127))

/-- Screen a job-supplied tail for what turns a join into a redirect. -/
def rejectTraversal (tail : String) : Except DenyReason Unit :=
  if "//".toList.isPrefixOf tail.toList || "/\\".toList.isPrefixOf tail.toList ||
      "\\".toList.isPrefixOf tail.toList then .error (.pathEscape tail)
  else if holds "://".toList tail.toList then .error (.pathEscape tail)
  else
    match percentDecode tail with
    | none => .error (.pathEscape tail)
    | some decoded =>
      if viewClean tail && viewClean decoded then .ok () else .error (.pathEscape tail)

/-- A tail without its leading slashes. -/
def trimSlashes (tail : String) : String :=
  String.ofList (tail.toList.dropWhile fun c => c = '/')

/-- Whether a path starts with a base path. -/
def under (base path : String) : Bool :=
  base.toList.isPrefixOf path.toList

namespace Allowlist

/-- Resolve `/u/<label>/<tail>` into an absolute upstream URL. -/
def resolve (crate : UrlCrate) (list : Allowlist) (label tail : String) :
    Except DenyReason (Upstream × Url) := do
  let upstream ← (list.get label).elim (.error (.unknownUpstream label)) .ok
  rejectTraversal tail
  let joined ← (crate.join upstream.base.url (trimSlashes tail)).elim
    (.error (.pathEscape tail)) .ok
  if originOf joined ≠ upstream.origin then .error (.originEscape (crate.asStr joined))
  else if under upstream.base.url.path joined.path = false then .error (.pathEscape joined.path)
  else return (upstream, joined)

/-- The upstream that serves a URL: the first one of its origin whose base it is under. -/
def serving (list : Allowlist) (url : Url) : Option Upstream :=
  list.upstreams.find? fun u => u.origin = originOf url && under u.base.url.path url.path

/-- Resolve an absolute-form request URI. -/
def resolveAbsolute (crate : UrlCrate) (list : Allowlist) (raw : String) :
    Except DenyReason (Upstream × Url) :=
  match crate.parse raw with
  | .error _ => .error (.notAbsolute raw)
  | .ok url =>
    if url.host = none then .error (.notAbsolute raw)
    else
      match list.serving url with
      | none => .error (.hostNotAllowlisted (hostPort url))
      | some upstream =>
        if url.username ≠ "" ∨ url.password.isSome = true then
          .error (.hostNotAllowlisted (hostPort url))
        else .ok (upstream, url)

end Allowlist

/-- Methods a package proxy serves. -/
def allowedMethods : List String := ["GET", "HEAD"]

def checkMethod (method : String) : Except DenyReason Unit :=
  if method ∈ allowedMethods then .ok () else .error (.methodNotAllowed method)

/-! ### What the doors check -/

namespace Allowlist

theorem name_inj {list : Allowlist} {u v : Upstream} (here : u ∈ list.upstreams)
    (there : v ∈ list.upstreams) (same : u.name = v.name) : u = v := by
  have names : (list.upstreams.map Upstream.name).Nodup := by
    rw [List.Nodup, List.pairwise_map]
    exact list.ordered.imp ne_of_lt
  exact List.inj_on_of_nodup_map names here there same

theorem get_some {list : Allowlist} {label : String} {u : Upstream} :
    list.get label = some u ↔ u ∈ list.upstreams ∧ u.name = label := by
  unfold get
  constructor
  · intro found
    exact ⟨List.mem_of_find?_eq_some found, by simpa using List.find?_some found⟩
  · rintro ⟨member, rfl⟩
    cases found : list.upstreams.find? fun v => v.name = u.name with
    | none =>
      have := List.find?_eq_none.mp found u member
      simp at this
    | some v =>
      have same : v.name = u.name := by simpa using List.find?_some found
      rw [name_inj (List.mem_of_find?_eq_some found) member same]

theorem resolve_ok {crate : UrlCrate} {list : Allowlist} {label tail : String} {u : Upstream}
    {url : Url} : list.resolve crate label tail = .ok (u, url) ↔
      list.get label = some u ∧ rejectTraversal tail = .ok () ∧
        crate.join u.base.url (trimSlashes tail) = some url ∧ originOf url = u.origin ∧
        under u.base.url.path url.path = true := by
  unfold resolve
  cases found : list.get label with
  | none => simp [bind, Except.bind]
  | some v =>
    cases screened : rejectTraversal tail with
    | error e =>
      simp only [Option.elim_some, bind, Except.bind]
      constructor
      · intro no
        cases no
      · rintro ⟨_, no, _⟩
        cases no
    | ok _ =>
      simp only [Option.elim_some, bind, Except.bind]
      cases joined : crate.join v.base.url (trimSlashes tail) with
      | none =>
        constructor
        · intro no
          cases no
        · rintro ⟨same, _, no, _⟩
          cases same
          rw [joined] at no
          cases no
      | some url' =>
        simp only [Option.elim_some]
        split
        · rename_i moved
          constructor
          · intro no
            cases no
          · rintro ⟨same, _, here, origin, _⟩
            cases same
            rw [joined] at here
            cases here
            exact absurd origin moved
        · rename_i origin
          split
          · rename_i outside
            constructor
            · intro no
              cases no
            · rintro ⟨same, _, here, _, below⟩
              cases same
              rw [joined] at here
              cases here
              rw [outside] at below
              cases below
          · rename_i below
            constructor
            · intro same
              cases same
              exact ⟨rfl, trivial, joined, not_not.mp origin, by simpa using below⟩
            · rintro ⟨same, _, here, _⟩
              cases same
              rw [joined] at here
              cases here
              rfl

theorem serving_some {list : Allowlist} {url : Url} {u : Upstream}
    (serves : list.serving url = some u) : u ∈ list.upstreams ∧ u.origin = originOf url ∧
      under u.base.url.path url.path = true := by
  have checked := List.find?_some serves
  simp only [Bool.and_eq_true, decide_eq_true_eq] at checked
  exact ⟨List.mem_of_find?_eq_some serves, checked⟩

/-- What is checked of a URL that the absolute form accepts. -/
theorem resolveAbsolute_ok {crate : UrlCrate} {list : Allowlist} {raw : String} {u : Upstream}
    {url : Url} : list.resolveAbsolute crate raw = .ok (u, url) ↔
      crate.parse raw = .ok url ∧ url.host ≠ none ∧ list.serving url = some u ∧
        url.username = "" ∧ url.password = none := by
  unfold resolveAbsolute
  cases parsed : crate.parse raw with
  | error e => simp
  | ok url' =>
    by_cases hosted : url'.host = none
    · simp only [if_pos hosted]
      constructor
      · intro no
        cases no
      · rintro ⟨same, host, _⟩
        cases same
        exact absurd hosted host
    simp only [if_neg hosted]
    cases serves : list.serving url' with
    | none =>
      constructor
      · intro no
        cases no
      · rintro ⟨same, _, no, _⟩
        cases same
        rw [serves] at no
        cases no
    | some v =>
      by_cases user : url'.username ≠ "" ∨ url'.password.isSome = true
      · simp only [if_pos user]
        constructor
        · intro no
          cases no
        · rintro ⟨same, _, _, name, word⟩
          cases same
          rcases user with named | worded
          · exact absurd name named
          · rw [word] at worded
            cases worded
      · simp only [if_neg user]
        have bare : url'.username = "" ∧ url'.password = none := by simpa using user
        constructor
        · intro same
          cases same
          exact ⟨rfl, hosted, serves, bare⟩
        · rintro ⟨same, _, serves', _⟩
          cases same
          rw [serves] at serves'
          cases serves'
          rfl

end Allowlist

end HullCi.Proxy
