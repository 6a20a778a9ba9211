/-
**Redacted URLs: what an error of a download may say about where it came from.**

`source_url` may carry a login before its host and a token in its query or fragment, so an error
names it only through `redact_url`. A URL is read here as its parts, and the function as the index
arithmetic of the source.

* `redactUrl_text` — what the function leaves of a URL, by its parts.
* `redaction_hides` — two URLs that differ in their secrets only are redacted, and reported, alike
  exactly when their logins agree behind the first `@`.
-/

import HullCi.Proto.Contract
import HullCi.Fetch.Extract
import Mathlib.Data.List.Infix

namespace HullCi.Fetch

open HullCi.Proto

/-! ### The function -/

/-- `str::find`: where the text first stands. -/
def find (needle : List Char) : List Char → Option ℕ
  | [] => if needle.isEmpty then some 0 else none
  | c :: rest =>
    if needle.isPrefixOf (c :: rest) then some 0 else (find needle rest).map (· + 1)

/-- Whether a character ends what the function reads of a URL. -/
def cuts (c : Char) : Bool :=
  c == '?' || c == '#'

/-- Userinfo only counts if it precedes the path. -/
def withoutUserinfo (rest : List Char) : List Char :=
  match rest.idxOf? '@', rest.idxOf? '/' with
  | some at', none => rest.drop (at' + 1)
  | some at', some slash => if at' < slash then rest.drop (at' + 1) else rest
  | none, _ => rest

/-- The scheme and what is left of the rest, of a URL cut before its query. -/
def redactBase (base : List Char) : List Char :=
  match find "://".toList base with
  | some i => base.take (i + 3) ++ withoutUserinfo (base.drop (i + 3))
  | none => withoutUserinfo base

def redactUrl (url : String) : String :=
  let cut := url.toList.findIdx cuts
  let truncated := cut < url.toList.length
  String.ofList (redactBase (url.toList.take cut) ++ if truncated then "?…".toList else [])

/-! ### Errors -/

def Rejection.text : Rejection → String
  | .absolutePath => "absolute path"
  | .parentTraversal => "`..` traversal"
  | .nonUtf8Path => "path is not valid UTF-8"
  | .illegalByte => "illegal byte in name"
  | .backslashInName => "backslash in name"
  | .nameTooLong limit => "component longer than " ++ toString limit ++ " bytes"
  | .tooDeep limit => "path deeper than " ++ toString limit ++ " components"
  | .duplicate => "duplicate entry"
  | .unicodeCollision with' => "path collides with `" ++ with' ++ "` under unicode normalization"
  | .privilegedMode mode =>
    "setuid/setgid/sticky bit set (mode " ++ String.ofList (Nat.toDigits 8 mode) ++ ")"
  | .hardLink => "hardlink"
  | .specialFile kind => "special file (" ++ kind ++ ")"
  | .absoluteSymlinkTarget => "absolute symlink target"
  | .symlinkEscapesRoot => "symlink target escapes the tree root"
  | .symlinkAncestor link => "path traverses the symlink `" ++ link ++ "`"
  | .fileTooLarge limit => "file exceeds the " ++ toString limit ++ "-byte per-file cap"
  | .conflict => "path conflicts with an earlier entry"

def ExtractError.text : ExtractError → String
  | .archiveTooLarge limit => "archive exceeds the " ++ toString limit ++ "-byte cap"
  | .tooManyEntries limit => "archive has more than " ++ toString limit ++ " entries"
  | .contentTooLarge limit => "extracted content exceeds the " ++ toString limit ++ "-byte cap"
  | .rejected path reason => "rejected entry `" ++ path ++ "`: " ++ reason.text
  | .malformed message => "malformed tar archive: " ++ message
  | .destinationNotEmpty => "destination is not an empty directory"
  | .io message => "i/o error during extraction: " ++ message

/-- Why a tree could not be fetched. The errors of other parts come with their own text. -/
inductive FetchError
  | contract (message : String)
  | badTreeId (message : String)
  | badFetchToken
  | http (status : ℕ) (url : String)
  | transport (url detail : String)
  | declaredTooLarge (declared limit : ℕ)
  | extract (error : ExtractError)
  | verify (message : String)
  | store (message : String)
  | timeout (secs : ℕ)
  | internal (message : String)
  deriving DecidableEq, Repr

namespace FetchError

def text : FetchError → String
  | contract message => "dispatch is unusable: " ++ message
  | badTreeId message => message
  | badFetchToken => "fetch token is not a valid header value"
  | http status url => "source endpoint returned HTTP " ++ toString status ++ " for " ++ url
  | transport url detail => "could not fetch " ++ url ++ ": " ++ detail
  | declaredTooLarge declared limit =>
    "source endpoint declared " ++ toString declared ++ " bytes, above the " ++ toString limit
      ++ "-byte cap"
  | extract error => error.text
  | verify message => message
  | store message => message
  | timeout secs => "fetch exceeded its " ++ toString secs ++ "s budget"
  | internal message => "internal task failed: " ++ message

/-- Everything is `errored`, and slow is told from broken. -/
def reason : FetchError → Reason
  | timeout _ => .timeout
  | _ => .infra

def toVerdict (error : FetchError) : Verdict :=
  .errored error.reason (sanitizeSummary error.text summaryMaxChars)

end FetchError

/-! ### The download -/

/-- What is wrong with a request, in the classes the broker tells apart. -/
inductive TransportFailure
  | connect
  | timeout
  | decode
  | body
  | other
  deriving DecidableEq, Repr

/-- The class of failure only: the client's own text has the whole URL in it. -/
def transportDetail : TransportFailure → String
  | .connect => "connection failed"
  | .timeout => "timed out"
  | .decode => "malformed response body"
  | .body => "response body ended early"
  | .other => "request failed"

/-- One chunk of the body, and how writing it to the archive went. -/
structure Chunk where
  bytes : ℕ
  written : Except String Unit

/-- What the source answers, and what the disk does with it. -/
structure Response where
  status : ℕ
  contentLength : Option ℕ
  created : Except String Unit
  chunks : List (Except TransportFailure Chunk)
  flushed : Except String Unit

/-- What one download meets: which tokens a header can hold, and the answer to the request. -/
structure Exchange where
  encodable : String → Bool
  sent : Except TransportFailure Response

/-- The body, under the cap on bytes received. -/
def receive (safeUrl : String) (limit : ℕ) :
    ℕ → List (Except TransportFailure Chunk) → Except FetchError ℕ
  | written, [] => .ok written
  | _, .error failure :: _ => .error (.transport safeUrl (transportDetail failure))
  | written, .ok chunk :: rest =>
    if limit < written + chunk.bytes then .error (.extract (.archiveTooLarge limit))
    else
      match chunk.written with
      | .error message => .error (.internal message)
      | .ok () => receive safeUrl limit (written + chunk.bytes) rest

/-- `FetchBroker::download`: the bytes of the archive, or why there is none. -/
def download (limit : ℕ) (sourceUrl : String) (fetchToken : Option String) (meets : Exchange) :
    Except FetchError ℕ :=
  let safeUrl := redactUrl sourceUrl
  if fetchToken.any (fun token => !meets.encodable ("Bearer " ++ token)) then
    .error .badFetchToken
  else
    match meets.sent with
    | .error failure => .error (.transport safeUrl (transportDetail failure))
    | .ok response =>
      if ¬ (200 ≤ response.status ∧ response.status < 300) then
        .error (.http response.status safeUrl)
      else if response.contentLength.any (limit < ·) then
        .error (.declaredTooLarge (response.contentLength.getD 0) limit)
      else
        match response.created with
        | .error message => .error (.internal message)
        | .ok () =>
          match receive safeUrl limit 0 response.chunks with
          | .error error => .error error
          | .ok written =>
            match response.flushed with
            | .error message => .error (.internal message)
            | .ok () => .ok written

/-- What a failed download says: its message, and the verdict it ends the job with. -/
def told (limit : ℕ) (sourceUrl : String) (fetchToken : Option String) (meets : Exchange) :
    Option (String × Verdict) :=
  match download limit sourceUrl fetchToken meets with
  | .error error => some (error.text, error.toVerdict)
  | .ok _ => none

/-! ### The parts of a URL -/

/-- `scheme://userinfo@host/path?query#fragment`. The userinfo is everything before the last `@` of
the authority, the path what follows its first `/`; any part may be absent. -/
structure Url where
  scheme : Option (List Char)
  userinfo : Option (List Char)
  host : List Char
  path : Option (List Char)
  query : Option (List Char)
  fragment : Option (List Char)
  schemePlain : ∀ s ∈ scheme, ∀ c ∈ s, c ≠ ':' ∧ c ≠ '/' ∧ cuts c = false
  userinfoPlain : ∀ u ∈ userinfo, ∀ c ∈ u, c ≠ '/' ∧ cuts c = false
  hostPlain : ∀ c ∈ host, c ≠ '@' ∧ c ≠ '/' ∧ cuts c = false
  pathPlain : ∀ p ∈ path, ∀ c ∈ p, cuts c = false
  queryPlain : ∀ q ∈ query, ∀ c ∈ q, c ≠ '#'

namespace Url

def front (url : Url) : List Char :=
  url.scheme.elim [] (· ++ "://".toList)

def login (url : Url) : List Char :=
  url.userinfo.elim [] (· ++ ['@'])

def pathText (url : Url) : List Char :=
  url.path.elim [] ('/' :: ·)

/-- The host and the path. -/
def place (url : Url) : List Char :=
  url.host ++ url.pathText

/-- The query and the fragment. -/
def rear (url : Url) : List Char :=
  url.query.elim [] ('?' :: ·) ++ url.fragment.elim [] ('#' :: ·)

def base (url : Url) : List Char :=
  url.front ++ (url.login ++ url.place)

def text (url : Url) : String :=
  String.ofList (url.base ++ url.rear)

end Url

/-- Two URLs with the same parts present, that may differ in what is secret. -/
structure Agree (first second : Url) : Prop where
  scheme : first.scheme = second.scheme
  host : first.host = second.host
  path : first.path = second.path
  userinfo : first.userinfo.isSome = second.userinfo.isSome
  query : first.query.isSome = second.query.isSome
  fragment : first.fragment.isSome = second.fragment.isSome

/-- Nobody told of the one can tell it from the other: not by the redacted text, and not by the
message or the verdict of a download that failed. -/
structure Alike (first second : String) : Prop where
  redacted : redactUrl first = redactUrl second
  reported : ∀ limit fetchToken meets,
    told limit first fetchToken meets = told limit second fetchToken meets

/-- What of a login stands behind its first `@`, with the `@` that ends it. -/
def behindSign (userinfo : List Char) : List Char :=
  ((userinfo ++ ['@']).dropWhile (· ≠ '@')).tail

/-- Without a scheme, a `://` of the host and path is taken for one. -/
def Url.Misread (url : Url) : Prop :=
  url.scheme = none ∧ "://".toList <:+: url.place

instance (url : Url) : Decidable url.Misread :=
  inferInstanceAs (Decidable (_ ∧ _))

/-- The logins agree behind the first `@`, and wholly where a `://` is misread. -/
def Unseen (first second : Url) : Prop :=
  ∀ user ∈ first.userinfo, ∀ user' ∈ second.userinfo,
    behindSign user = behindSign user' ∧ (first.Misread → user = user')

/-! ### Finding -/

theorem find_eq_none {needle : List Char} {hay : List Char} :
    find needle hay = none ↔ ¬ needle <:+: hay := by
  induction hay with
  | nil =>
    simp only [find, List.isEmpty_iff, List.infix_nil]
    split <;> simp_all
  | cons c rest hyp =>
    rw [find, List.infix_cons_iff]
    split
    · rename_i here
      simp [List.isPrefixOf_iff_prefix.mp here]
    · rename_i elsewhere
      rw [Option.map_eq_none_iff, hyp, not_or]
      exact (and_iff_right (elsewhere ∘ List.isPrefixOf_iff_prefix.mpr)).symm

/-- A text that starts where the needle starts is found at once. -/
theorem find_prefix (needle rest : List Char) : find needle (needle ++ rest) = some 0 := by
  cases needle with
  | nil => cases rest <;> simp [find]
  | cons c needle =>
    rw [List.cons_append, find, if_pos]
    exact List.isPrefixOf_iff_prefix.mpr (List.prefix_append _ _)

/-- No needle starts in a part without its first character. -/
theorem find_skip {c : Char} {needle pre : List Char} (hay : List Char) (free : c ∉ pre) :
    find (c :: needle) (pre ++ hay) = (find (c :: needle) hay).map (pre.length + ·) := by
  induction pre with
  | nil => simp
  | cons d pre hyp =>
    rw [List.mem_cons, not_or] at free
    have elsewhere : ¬ (c :: needle).isPrefixOf (d :: (pre ++ hay)) = true := by
      rw [List.isPrefixOf_iff_prefix, List.cons_prefix_cons]
      exact fun here => free.1 here.1
    rw [List.cons_append, find, if_neg elsewhere, hyp free.2, Option.map_map]
    congr 1
    funext i
    simp only [Function.comp_apply, List.length_cons]
    omega

/-- No `://` starts in a login: the character after a `:` is not a `/`. -/
theorem find_login {user : List Char} (hay : List Char) (plain : '/' ∉ user) :
    find "://".toList (user ++ '@' :: hay)
      = (find "://".toList hay).map (user.length + 1 + ·) := by
  induction user with
  | nil =>
    have skipped : find [':', '/', '/'] (['@'] ++ hay) = _ := find_skip hay (by decide)
    simpa [Nat.add_comm] using skipped
  | cons d user hyp =>
    rw [List.mem_cons, not_or] at plain
    have elsewhere : ¬ "://".toList.isPrefixOf (d :: (user ++ '@' :: hay)) = true := by
      rw [List.isPrefixOf_iff_prefix]
      intro here
      cases user with
      | nil => simp at here
      | cons e user => simp_all
    rw [List.cons_append, find, if_neg elsewhere, hyp plain.2, Option.map_map]
    congr 1
    funext i
    simp only [Function.comp_apply, List.length_cons]
    omega

theorem idxOf?_skip {c : Char} {pre : List Char} (rest : List Char) (free : c ∉ pre) :
    (pre ++ rest).idxOf? c = (rest.idxOf? c).map (pre.length + ·) := by
  induction pre with
  | nil => simp
  | cons d pre hyp =>
    rw [List.mem_cons, not_or] at free
    rw [List.cons_append, List.idxOf?_cons, if_neg (by simpa using Ne.symm free.1), hyp free.2,
      Option.map_map]
    congr 1
    funext i
    simp only [Function.comp_apply, List.length_cons]
    omega

/-! ### What is left of a URL -/

/-- The first `@` of an authority ends what is dropped. -/
theorem withoutUserinfo_sign {pre : List Char} (rest : List Char) (sign : '@' ∉ pre)
    (slash : '/' ∉ pre) : withoutUserinfo (pre ++ '@' :: rest) = rest := by
  have at' : (pre ++ '@' :: rest).idxOf? '@' = some pre.length := by
    rw [idxOf?_skip _ sign, List.idxOf?_cons]
    simp
  have later : ∀ s, (pre ++ '@' :: rest).idxOf? '/' = some s → pre.length < s := by
    intro s found
    rw [idxOf?_skip _ slash, List.idxOf?_cons] at found
    simp at found
    omega
  have dropped : (pre ++ '@' :: rest).drop (pre.length + 1) = rest := by
    rw [← List.drop_drop, List.drop_left, List.drop_one, List.tail_cons]
  unfold withoutUserinfo
  rw [at']
  split
  · rename_i found _
    cases found
    exact dropped
  · rename_i found slash
    cases found
    rw [if_pos (later _ slash)]
    exact dropped
  · rename_i none
    cases none

/-- The login up to its first `@`, and what stands behind it. -/
theorem behindSign_split (user : List Char) :
    ∃ pre, '@' ∉ pre ∧ pre ⊆ user ∧ user ++ ['@'] = pre ++ '@' :: behindSign user := by
  induction user with
  | nil => exact ⟨[], by simp, by simp, rfl⟩
  | cons c user hyp =>
    by_cases sign : c = '@'
    · subst sign
      exact ⟨[], by simp, by simp, by simp [behindSign]⟩
    · obtain ⟨pre, free, sub, split⟩ := hyp
      have behind : behindSign (c :: user) = behindSign user := by
        simp [behindSign, sign]
      refine ⟨c :: pre, ?_, List.cons_subset_cons c sub, ?_⟩
      · rw [List.mem_cons, not_or]
        exact ⟨Ne.symm sign, free⟩
      · rw [List.cons_append, split, behind, List.cons_append]

/-- All of a login behind its first `@` stays. -/
theorem withoutUserinfo_login {user : List Char} (rest : List Char) (slash : '/' ∉ user) :
    withoutUserinfo (user ++ '@' :: rest) = behindSign user ++ rest := by
  obtain ⟨pre, free, sub, split⟩ := behindSign_split user
  have whole : user ++ '@' :: rest = pre ++ '@' :: (behindSign user ++ rest) := by
    calc user ++ '@' :: rest = (user ++ ['@']) ++ rest := by simp
      _ = pre ++ '@' :: (behindSign user ++ rest) := by rw [split]; simp
  rw [whole, withoutUserinfo_sign _ free fun member => slash (sub member)]

namespace Url

theorem not_slash {url : Url} {user : List Char} (present : user ∈ url.userinfo) :
    '/' ∉ user :=
  fun member => (url.userinfoPlain user present '/' member).1 rfl

theorem login_of_mem {url : Url} {user : List Char} (present : user ∈ url.userinfo) :
    url.login ++ url.place = user ++ '@' :: url.place := by
  rw [login, Option.mem_def.mp present]
  simp

/-- With a scheme, what follows the first `@` of the authority stays behind it. -/
theorem redactBase_scheme {url : Url} {scheme user : List Char} (named : scheme ∈ url.scheme)
    (present : user ∈ url.userinfo) :
    redactBase url.base = url.front ++ (behindSign user ++ url.place) := by
  have free : ':' ∉ scheme := fun member => (url.schemePlain scheme named ':' member).1 rfl
  have front : url.front = scheme ++ "://".toList := by
    rw [Url.front, Option.mem_def.mp named]
    rfl
  have found : find "://".toList url.base = some scheme.length := by
    rw [base, front, List.append_assoc, show "://".toList = [':', '/', '/'] from rfl,
      find_skip _ free, find_prefix]
    rfl
  have length : url.front.length = scheme.length + 3 := by
    rw [front, List.length_append]
    rfl
  rw [redactBase, found, base]
  simp only [← length, List.take_left, List.drop_left]
  rw [login_of_mem present, withoutUserinfo_login _ (not_slash present)]

/-- Without a scheme, and with no `://` elsewhere, the same. -/
theorem redactBase_bare {url : Url} {user : List Char} (bare : url.scheme = none)
    (absent : ¬ "://".toList <:+: url.place) (present : user ∈ url.userinfo) :
    redactBase url.base = url.front ++ (behindSign user ++ url.place) := by
  have front : url.front = [] := by
    rw [Url.front, bare]
    rfl
  have found : find "://".toList (user ++ '@' :: url.place) = none := by
    rw [find_login _ (not_slash present), find_eq_none.mpr absent]
    rfl
  rw [base, front, List.nil_append, List.nil_append, login_of_mem present, redactBase, found]
  exact withoutUserinfo_login _ (not_slash present)

/-- Where a later `://` is taken for the scheme's, the whole login stays before it. -/
theorem redactBase_misread {url : Url} {user : List Char} (misread : url.Misread)
    (present : user ∈ url.userinfo) :
    redactBase url.base = user ++ '@' :: redactBase url.place := by
  have front : url.front = [] := by
    rw [Url.front, misread.1]
    rfl
  obtain ⟨i, place⟩ : ∃ i, find "://".toList url.place = some i :=
    Option.ne_none_iff_exists'.mp fun none => find_eq_none.mp none misread.2
  have found : find "://".toList (user ++ '@' :: url.place) = some (user.length + 1 + i) := by
    rw [find_login _ (not_slash present), place]
    rfl
  have signed : user ++ '@' :: url.place = (user ++ ['@']) ++ url.place := by
    simp
  have length : user.length + 1 + i + 3 = (user ++ ['@']).length + (i + 3) := by
    rw [List.length_append, List.length_singleton]
    omega
  rw [base, front, List.nil_append, login_of_mem present, redactBase, found, redactBase, place]
  simp only
  rw [signed, length, List.take_length_add_append, List.drop_length_add_append]
  simp

/-- The base holds neither `?` nor `#`. -/
theorem base_plain (url : Url) : ∀ c ∈ url.base, cuts c = false := by
  have front : ∀ c ∈ url.front, cuts c = false := by
    cases named : url.scheme with
    | none => simp [Url.front, named]
    | some scheme =>
      intro c member
      rw [Url.front, named, Option.elim_some, List.mem_append] at member
      rcases member with member | member
      · exact (url.schemePlain scheme named c member).2.2
      · revert c
        simp [cuts]
  have login : ∀ c ∈ url.login, cuts c = false := by
    cases present : url.userinfo with
    | none => simp [Url.login, present]
    | some user =>
      intro c member
      rw [Url.login, present, Option.elim_some, List.mem_append, List.mem_singleton] at member
      rcases member with member | rfl
      · exact (url.userinfoPlain user present c member).2
      · rfl
  have path : ∀ c ∈ url.pathText, cuts c = false := by
    cases present : url.path with
    | none => simp [Url.pathText, present]
    | some path =>
      intro c member
      rw [Url.pathText, present, Option.elim_some, List.mem_cons] at member
      rcases member with rfl | member
      · rfl
      · exact url.pathPlain path present c member
  intro c member
  rw [base, place, List.mem_append, List.mem_append, List.mem_append] at member
  rcases member with member | member | member | member
  · exact front c member
  · exact login c member
  · exact (url.hostPlain c member).2.2
  · exact path c member

/-- What follows the base is nothing, or starts with `?` or `#`. -/
theorem rear_cases (url : Url) :
    (url.rear = [] ∧ (url.query.isSome || url.fragment.isSome) = false) ∨
      ∃ c rest, url.rear = c :: rest ∧ cuts c = true ∧
        (url.query.isSome || url.fragment.isSome) = true := by
  unfold rear
  cases url.query with
  | some query => exact .inr ⟨'?', _, rfl, rfl, rfl⟩
  | none =>
    cases url.fragment with
    | some fragment => exact .inr ⟨'#', _, rfl, rfl, rfl⟩
    | none => exact .inl ⟨rfl, rfl⟩

end Url

theorem findIdx_plain {p : Char → Bool} {pre : List Char} (rest : List Char)
    (plain : ∀ c ∈ pre, p c = false) :
    (pre ++ rest).findIdx p = pre.length + rest.findIdx p := by
  induction pre with
  | nil => simp
  | cons c pre hyp =>
    rw [List.forall_mem_cons] at plain
    rw [List.cons_append, List.findIdx_cons, plain.1, cond_false, hyp plain.2, List.length_cons]
    omega

/-- What the function leaves of a URL: its base redacted, and a mark if something was cut off. -/
theorem redactUrl_text (url : Url) :
    redactUrl url.text = String.ofList (redactBase url.base ++
      if url.query.isSome || url.fragment.isSome then "?…".toList else []) := by
  unfold redactUrl
  have characters : url.text.toList = url.base ++ url.rear := String.toList_ofList
  rw [characters, findIdx_plain _ url.base_plain]
  rcases url.rear_cases with ⟨rear, absent⟩ | ⟨c, rest, rear, cut, present⟩
  · rw [rear, absent]
    simp
  · rw [rear, present, List.findIdx_cons, cut]
    simp

/-! ### Two URLs that differ in their secrets -/

/-- The report of a download depends on the URL only through its redacted form. -/
theorem told_of_redacted {first second : String} (same : redactUrl first = redactUrl second) :
    Alike first second where
  redacted := same
  reported := by
    intro limit fetchToken meets
    unfold told download
    rw [same]

namespace Agree

theorem place {first second : Url} (agree : Agree first second) : first.place = second.place := by
  rw [Url.place, Url.place, Url.pathText, Url.pathText, agree.host, agree.path]

theorem front {first second : Url} (agree : Agree first second) : first.front = second.front := by
  rw [Url.front, Url.front, agree.scheme]

theorem misread {first second : Url} (agree : Agree first second) :
    first.Misread ↔ second.Misread := by
  rw [Url.Misread, Url.Misread, agree.scheme, agree.place]

/-- Equal redacted texts are equal redacted bases: the mark is in both or in neither. -/
theorem redacted_iff {first second : Url} (agree : Agree first second) :
    redactUrl first.text = redactUrl second.text ↔
      redactBase first.base = redactBase second.base := by
  rw [redactUrl_text, redactUrl_text, agree.query, agree.fragment, String.ofList_inj,
    List.append_left_inj]

end Agree

/-- What stays of a URL with a login, when nothing is misread. -/
theorem redactBase_login {url : Url} {user : List Char} (read : ¬ url.Misread)
    (present : user ∈ url.userinfo) :
    redactBase url.base = url.front ++ (behindSign user ++ url.place) := by
  cases named : url.scheme with
  | some scheme => exact Url.redactBase_scheme named present
  | none => exact Url.redactBase_bare named (fun misread => read ⟨named, misread⟩) present

/-- Two URLs that differ in their secrets only are redacted and reported alike exactly when the
logins agree behind their first `@`, and wholly where a later `://` is taken for the scheme's. -/
theorem redaction_hides (first second : Url) (agree : Agree first second) :
    Alike first.text second.text ↔ Unseen first second := by
  have alike : Alike first.text second.text ↔ redactBase first.base = redactBase second.base :=
    ⟨fun alike => agree.redacted_iff.mp alike.redacted,
      fun same => told_of_redacted (agree.redacted_iff.mpr same)⟩
  rw [alike]
  cases present : first.userinfo with
  | none =>
    have absent : second.userinfo = none := by
      simpa [present] using agree.userinfo
    have base : first.base = second.base := by
      rw [Url.base, Url.base, Url.login, Url.login, present, absent, agree.front, agree.place]
    simp [base, Unseen, present]
  | some user =>
    obtain ⟨user', present'⟩ : ∃ user', second.userinfo = some user' :=
      Option.isSome_iff_exists.mp (agree.userinfo ▸ present ▸ rfl)
    have unseen : Unseen first second ↔
        behindSign user = behindSign user' ∧ (first.Misread → user = user') := by
      simp [Unseen, present, present']
    rw [unseen]
    by_cases misread : first.Misread
    · rw [Url.redactBase_misread misread present,
        Url.redactBase_misread (agree.misread.mp misread) present', agree.place]
      constructor
      · intro same
        have users : user = user' := List.append_left_inj _ |>.mp same
        exact ⟨users ▸ rfl, fun _ => users⟩
      · rintro ⟨-, users⟩
        rw [users misread]
    · rw [redactBase_login misread present,
        redactBase_login (fun other => misread (agree.misread.mpr other)) present', agree.front,
        agree.place, List.append_right_inj, List.append_left_inj]
      exact (and_iff_left fun other => absurd other misread).symm

/-- `https://userinfo@host/x`. -/
def tarOf (user : List Char) (plain : ∀ c ∈ user, c ≠ '/' ∧ cuts c = false) : Url where
  scheme := some "https".toList
  userinfo := some user
  host := "host".toList
  path := some ['x']
  query := none
  fragment := none
  schemePlain := by simp [cuts]
  userinfoPlain := by
    rintro _ ⟨⟩
    exact plain
  hostPlain := by simp [cuts]
  pathPlain := by simp [cuts]
  queryPlain := by
    rintro _ ⟨⟩

theorem tarOf_agree {user user' : List Char} (plain : ∀ c ∈ user, c ≠ '/' ∧ cuts c = false)
    (plain' : ∀ c ∈ user', c ≠ '/' ∧ cuts c = false) :
    Agree (tarOf user plain) (tarOf user' plain') :=
  ⟨rfl, rfl, rfl, rfl, rfl, rfl⟩

/-- A password with an `@` in it is told from another by the part behind that `@`. -/
theorem password_leaks :
    Agree (tarOf "u:p@ss".toList (by simp [cuts])) (tarOf "u:p@zz".toList (by simp [cuts])) ∧
      ¬ Alike (tarOf "u:p@ss".toList (by simp [cuts])).text
        (tarOf "u:p@zz".toList (by simp [cuts])).text := by
  refine ⟨tarOf_agree _ _, fun alike => ?_⟩
  have same := alike.redacted
  revert same
  decide

def tarLogin : Url :=
  tarOf "u:pw".toList (by simp [cuts])

def tarOtherLogin : Url :=
  tarOf "u:other".toList (by simp [cuts])

/-- Passwords without an `@` are never seen. -/
theorem plain_password_hidden : Alike tarLogin.text tarOtherLogin.text := by
  have unseen : Unseen tarLogin tarOtherLogin := by
    rintro user ⟨⟩ user' ⟨⟩
    exact ⟨by decide, fun misread => absurd misread.1 (by decide)⟩
  exact (redaction_hides _ _ (tarOf_agree _ _)).mpr unseen

end HullCi.Fetch
