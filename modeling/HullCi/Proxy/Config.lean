/-
**The upstreams of a deployment, as its operator writes them.**

Entries stand between `;`, and an entry is `label=url` with options behind it, between `,`. The
options are folded into two variables, so the last one of a key wins, and the scheme of an entry
without a secret is left behind. An unknown option is an error, and so is a label used twice.

* `takeAll_ok` — what is left of the options that were accepted.
* `upstreams_in_force` — all that was written is in force just when no key is repeated and every
  scheme has a secret beside it.
-/

import HullCi.Proto.Text
import HullCi.Proxy.Allowlist
import Mathlib.Data.List.Forall2

namespace HullCi.Proxy

open HullCi.Proto (trim)

/-! ### Texts -/

/-- `str::split_once`: what stands before and after the first separator. -/
def splitOnce (sep : Char) (s : String) : Option (String × String) :=
  if sep ∈ s.toList then
    some (String.ofList (s.toList.takeWhile (· ≠ sep)),
      String.ofList ((s.toList.dropWhile (· ≠ sep)).drop 1))
  else none

/-- A text cut at every separator, the pieces trimmed. -/
def pieces (sep : Char) (s : String) : List String :=
  ((s.toList.splitOn sep).map String.ofList).map trim

/-- The entries that are not blank. -/
def entries (raw : String) : List String :=
  (pieces ';' raw).filter (· ≠ "")

/-! ### The parser -/

inductive ConfigError where
  | value (var detail : String)
  | upstreams (e : AllowlistError)
  deriving DecidableEq

def upstreamsVar : String := "HULL_CI_PROXY_UPSTREAMS"

/-- The scheme that an `auth` option names. -/
def parseAuth (value : String) : Except ConfigError AuthScheme :=
  let bad := ConfigError.value upstreamsVar
    ("auth `" ++ value ++ "` is not `bearer`, `basic:<user>` or `header:<Name>`")
  match splitOnce ':' value with
  | some (kind, rest) =>
    if kind = "basic" then .ok (.basic rest)
    else if kind = "header" then .ok (.header rest)
    else .error bad
  | none => if value = "bearer" then .ok .bearer else .error bad

/-- What the options of an entry have come to. -/
structure Options where
  secret : Option String := none
  auth : AuthScheme := .bearer

/-- One option. -/
def Options.take (entry : String) (o : Options) (opt : String) : Except ConfigError Options :=
  match splitOnce '=' opt with
  | none => .error (.value upstreamsVar ("option `" ++ opt ++ "` is not `key=value`"))
  | some (key, value) =>
    if key = "secret" then .ok { o with secret := some value }
    else if key = "auth" then (parseAuth value).map fun auth => { o with auth }
    else .error (.value upstreamsVar ("unknown option `" ++ key ++ "` in entry `" ++ entry ++ "`"))

/-- One entry. -/
def parseEntry (crate : UrlCrate) (entry : String) : Except ConfigError Upstream :=
  let parts := pieces ',' entry
  match splitOnce '=' (parts.head?.getD "") with
  | none => .error (.value upstreamsVar ("entry `" ++ entry ++ "` is not `label=url`"))
  | some (label, url) => do
    let o ← parts.tail.foldlM (Options.take entry) {}
    match o.secret with
    | some name => (Upstream.authenticated crate label url name o.auth).mapError .upstreams
    | none => (Upstream.public crate label url).mapError .upstreams

namespace Allowlist

def new : Allowlist := ⟨[], .nil⟩

/-- `BTreeMap::insert`: in its place, and instead of one of the same label. -/
def insert (list : Allowlist) (u : Upstream) : Allowlist where
  upstreams := list.upstreams.filter (·.name < u.name) ++
    u :: list.upstreams.filter (u.name < ·.name)
  ordered := by
    refine List.pairwise_append.mpr ⟨list.ordered.filter _, ?_, ?_⟩
    · refine List.pairwise_cons.mpr ⟨fun v there => ?_, list.ordered.filter _⟩
      simpa using (List.mem_filter.mp there).2
    · intro v before w after
      have first : v.name < u.name := by simpa using (List.mem_filter.mp before).2
      rcases List.mem_cons.mp after with rfl | later
      · exact first
      · exact first.trans (by simpa using (List.mem_filter.mp later).2)

/-- Build from a list, refusing duplicates. -/
def fromUpstreams (upstreams : List Upstream) : Except AllowlistError Allowlist :=
  upstreams.foldlM (fun list u =>
    if (list.get u.name).isSome then .error (.duplicate u.name) else .ok (list.insert u)) new

end Allowlist

/-- Parse `label=url[,secret=NAME][,auth=…]` entries, `;`-separated. -/
def parseUpstreams (crate : UrlCrate) (raw : String) : Except ConfigError Allowlist := do
  let upstreams ← (entries raw).mapM (parseEntry crate)
  (Allowlist.fromUpstreams upstreams).mapError .upstreams

/-! ### What was written -/

/-- The options of an entry, as they stand behind its head. -/
def optionTexts (entry : String) : List String :=
  (pieces ',' entry).tail

/-- The keys that options set, and what each sets its key to. -/
def settings (opts : List String) : List (String × String) :=
  opts.filterMap (splitOnce '=')

/-- What a key is set to where it is set last. -/
def given (key : String) (opts : List String) : Option String :=
  (settings opts).reverse.lookup key

/-- The keys of an entry's options. -/
def keys (entry : String) : List String :=
  (settings (optionTexts entry)).map Prod.fst

/-- Everything that an entry says is in force on an upstream. -/
structure InForce (crate : UrlCrate) (entry : String) (u : Upstream) : Prop where
  head : ∃ url, splitOnce '=' ((pieces ',' entry).head?.getD "") = some (u.name, url) ∧
    parseBase crate url = .ok u.base
  known : ∀ opt ∈ optionTexts entry, ∃ key value, splitOnce '=' opt = some (key, value) ∧
    (key = "secret" ∨ key = "auth")
  once : (keys entry).Nodup
  secret : ∀ name, u.credential = some name ↔ ("secret", name) ∈ settings (optionTexts entry)
  auth : ∀ scheme, ("auth", scheme) ∈ settings (optionTexts entry) →
    u.credential.isSome = true ∧ parseAuth scheme = .ok u.auth

/-- One upstream for each entry that is not blank, with everything that it says in force. -/
def Faithful (crate : UrlCrate) (raw : String) (list : Allowlist) : Prop :=
  ∃ upstreams : List Upstream, upstreams.Perm list.upstreams ∧
    List.Forall₂ (InForce crate) (entries raw) upstreams

/-- In every entry each key stands at most once, and `auth` only beside `secret`. -/
def Clear (raw : String) : Prop :=
  ∀ entry ∈ entries raw, (keys entry).Nodup ∧ ("auth" ∈ keys entry → "secret" ∈ keys entry)

instance (raw : String) : Decidable (Clear raw) :=
  inferInstanceAs (Decidable (∀ entry ∈ entries raw, _))

/-! ### Options -/

namespace Options

theorem take_ok {entry opt : String} {o o' : Options} (taken : o.take entry opt = .ok o') :
    ∃ key value, splitOnce '=' opt = some (key, value) ∧
      (key = "secret" ∧ o' = { o with secret := some value } ∨
        key = "auth" ∧ parseAuth value = .ok o'.auth ∧ o'.secret = o.secret) := by
  unfold take at taken
  cases split : splitOnce '=' opt with
  | none =>
    simp only [split] at taken
    cases taken
  | some setting =>
    obtain ⟨key, value⟩ := setting
    simp only [split] at taken
    refine ⟨key, value, rfl, ?_⟩
    by_cases secret : key = "secret"
    · rw [if_pos secret] at taken
      cases taken
      exact .inl ⟨secret, rfl⟩
    rw [if_neg secret] at taken
    by_cases auth : key = "auth"
    · rw [if_pos auth] at taken
      cases scheme : parseAuth value with
      | error e =>
        rw [scheme] at taken
        cases taken
      | ok a =>
        rw [scheme] at taken
        cases taken
        exact .inr ⟨auth, rfl, rfl⟩
    · rw [if_neg auth] at taken
      cases taken

end Options

/-- A setting in front is the one in force where none of its key follows. -/
theorem given_cons {key key' value opt : String} {opts : List String}
    (split : splitOnce '=' opt = some (key', value)) :
    given key (opt :: opts) =
      (given key opts).or (if key = key' then some value else none) := by
  have first : settings (opt :: opts) = (key', value) :: settings opts :=
    List.filterMap_cons_some split
  rw [given, first, List.reverse_cons, List.lookup_append]
  by_cases same : key = key'
  · rw [if_pos same, same, List.lookup_cons_self]
    rfl
  · rw [if_neg same, List.lookup_cons, beq_false_of_ne same]
    rfl

/-- What is left of options that were accepted: each key's last setting, and what stood before
where it has none. -/
theorem takeAll_ok {entry : String} {opts : List String} {o o' : Options}
    (taken : opts.foldlM (Options.take entry) o = .ok o') :
    o'.secret = (given "secret" opts).or o.secret ∧
      (∀ scheme, given "auth" opts = some scheme → parseAuth scheme = .ok o'.auth) ∧
      (given "auth" opts = none → o'.auth = o.auth) ∧
      ∀ opt ∈ opts, ∃ key value, splitOnce '=' opt = some (key, value) ∧
        (key = "secret" ∨ key = "auth") := by
  induction opts generalizing o with
  | nil =>
    cases taken
    refine ⟨rfl, fun scheme none => ?_, fun _ => rfl, List.forall_mem_nil _⟩
    cases none
  | cons opt opts ih =>
    rw [List.foldlM_cons] at taken
    cases first : o.take entry opt with
    | error e =>
      rw [first] at taken
      cases taken
    | ok o₁ =>
      rw [first] at taken
      obtain ⟨secret, auth, plain, known⟩ := ih taken
      obtain ⟨key, value, split, done⟩ := Options.take_ok first
      have all : ∀ opt' ∈ opt :: opts, ∃ key value, splitOnce '=' opt' = some (key, value) ∧
          (key = "secret" ∨ key = "auth") := by
        intro opt' member
        rcases List.mem_cons.mp member with rfl | later
        · exact ⟨key, value, split, done.imp And.left And.left⟩
        · exact known opt' later
      rw [given_cons split, given_cons split]
      rcases done with ⟨rfl, rfl⟩ | ⟨rfl, scheme, kept⟩
      · have other : ¬ "auth" = "secret" := by decide
        rw [if_pos rfl, if_neg other, Option.or_none]
        refine ⟨?_, auth, plain, all⟩
        rw [secret, Option.or_assoc]
        rfl
      · have other : ¬ "secret" = "auth" := by decide
        rw [if_pos rfl, if_neg other, Option.or_none]
        refine ⟨secret.trans (by rw [kept]), ?_, ?_, all⟩
        · intro last here
          cases later : given "auth" opts with
          | some scheme' =>
            rw [later] at here
            exact auth last (later.trans here)
          | none =>
            rw [later] at here
            cases here
            rw [plain later]
            exact scheme
        · intro none
          cases later : given "auth" opts with
          | some scheme' =>
            rw [later] at none
            cases none
          | none =>
            rw [later] at none
            cases none

theorem given_mem {key value : String} {opts : List String}
    (last : given key opts = some value) : (key, value) ∈ settings opts := by
  obtain ⟨l, l', split, -⟩ := List.lookup_eq_some_iff.mp last
  rw [← List.mem_reverse, split]
  exact List.mem_append_right l List.mem_cons_self

theorem given_of_mem {key value : String} {opts : List String}
    (once : ((settings opts).map Prod.fst).Nodup) (mem : (key, value) ∈ settings opts) :
    given key opts = some value := by
  cases last : given key opts with
  | none =>
    have absent := List.lookup_eq_none_iff.mp last (key, value) (List.mem_reverse.mpr mem)
    simp at absent
  | some value' =>
    cases List.inj_on_of_nodup_map once (given_mem last) mem rfl
    rfl

/-! ### Entries -/

theorem validatedLabel_ok {label name : String} (valid : validatedLabel label = .ok name) :
    name = label := by
  unfold validatedLabel at valid
  dsimp only at valid
  split at valid
  · cases valid
    rfl
  · cases valid

theorem mapError_ok {α ε ε' : Type} {f : ε → ε'} {r : Except ε α} {a : α}
    (here : r.mapError f = .ok a) : r = .ok a := by
  cases r with
  | error e => cases here
  | ok b =>
    cases here
    rfl

theorem upstream_ok {crate : UrlCrate} {label url : String} {credential : Option String}
    {auth : AuthScheme} {u : Upstream}
    (made : (validatedLabel label >>= fun name => parseBase crate url >>= fun base =>
      pure (Upstream.mk name base credential auth)) = Except.ok u) :
    u.name = label ∧ parseBase crate url = .ok u.base ∧ u.credential = credential ∧
      u.auth = auth := by
  cases valid : validatedLabel label with
  | error e =>
    rw [valid] at made
    cases made
  | ok label' =>
    rw [valid] at made
    cases parsed : parseBase crate url with
    | error e =>
      rw [parsed] at made
      cases made
    | ok base =>
      rw [parsed] at made
      cases made
      exact ⟨validatedLabel_ok valid, rfl, rfl, rfl⟩

/-- An entry that was accepted: its head, its options, and the last setting of each key. -/
theorem parseEntry_ok {crate : UrlCrate} {entry : String} {u : Upstream}
    (parsed : parseEntry crate entry = .ok u) :
    (∃ url, splitOnce '=' ((pieces ',' entry).head?.getD "") = some (u.name, url) ∧
        parseBase crate url = .ok u.base) ∧
      (∀ opt ∈ optionTexts entry, ∃ key value, splitOnce '=' opt = some (key, value) ∧
        (key = "secret" ∨ key = "auth")) ∧
      u.credential = given "secret" (optionTexts entry) ∧
      ∀ scheme, given "auth" (optionTexts entry) = some scheme → u.credential.isSome = true →
        parseAuth scheme = .ok u.auth := by
  unfold parseEntry at parsed
  dsimp only at parsed
  cases head : splitOnce '=' ((pieces ',' entry).head?.getD "") with
  | none =>
    rw [head] at parsed
    cases parsed
  | some named =>
    obtain ⟨label, url⟩ := named
    rw [head] at parsed
    dsimp only at parsed
    cases taken : (pieces ',' entry).tail.foldlM (Options.take entry) {} with
    | error e =>
      rw [taken] at parsed
      cases parsed
    | ok o =>
      rw [taken] at parsed
      obtain ⟨secret, auth, -, known⟩ := takeAll_ok taken
      rw [Option.or_none] at secret
      cases named : o.secret with
      | some name =>
        simp only [bind, Except.bind, named] at parsed
        obtain ⟨rfl, base, credential, injected⟩ := upstream_ok (mapError_ok parsed)
        refine ⟨⟨url, rfl, base⟩, known, (credential.trans named.symm).trans secret,
          fun scheme here _ => ?_⟩
        rw [injected]
        exact auth scheme here
      | none =>
        simp only [bind, Except.bind, named] at parsed
        obtain ⟨rfl, base, credential, -⟩ := upstream_ok (mapError_ok parsed)
        refine ⟨⟨url, rfl, base⟩, known, (credential.trans named.symm).trans secret,
          fun scheme _ injected => ?_⟩
        rw [credential] at injected
        cases injected

/-- What is in force stands once, and no scheme stands without a secret. -/
theorem InForce.clear {crate : UrlCrate} {entry : String} {u : Upstream}
    (force : InForce crate entry u) :
    (keys entry).Nodup ∧ ("auth" ∈ keys entry → "secret" ∈ keys entry) := by
  refine ⟨force.once, fun mem => ?_⟩
  obtain ⟨⟨key, scheme⟩, mem, rfl⟩ := List.mem_map.mp mem
  obtain ⟨name, named⟩ := Option.isSome_iff_exists.mp (force.auth scheme mem).1
  exact List.mem_map_of_mem ((force.secret name).mp named)

/-- An accepted entry that repeats no key, and has a secret beside its scheme, is in force. -/
theorem inForce_of_clear {crate : UrlCrate} {entry : String} {u : Upstream}
    (clear : (keys entry).Nodup ∧ ("auth" ∈ keys entry → "secret" ∈ keys entry))
    (parsed : parseEntry crate entry = .ok u) : InForce crate entry u := by
  obtain ⟨head, known, credential, auth⟩ := parseEntry_ok parsed
  obtain ⟨once, beside⟩ := clear
  refine ⟨head, known, once, fun name => ?_, fun scheme mem => ?_⟩
  · rw [credential]
    exact ⟨given_mem, given_of_mem once⟩
  · obtain ⟨⟨key, name⟩, named, rfl⟩ := List.mem_map.mp (beside (List.mem_map_of_mem mem))
    have injected : u.credential.isSome = true := by
      rw [credential, given_of_mem once named]
      rfl
    exact ⟨injected, auth scheme (given_of_mem once mem) injected⟩

/-! ### The whole string -/

theorem mapM_ok {α β ε : Type} {f : α → Except ε β} {l : List α} {l' : List β}
    (mapped : l.mapM f = .ok l') : List.Forall₂ (fun a b => f a = .ok b) l l' := by
  induction l generalizing l' with
  | nil =>
    cases mapped
    exact .nil
  | cons a l ih =>
    rw [List.mapM_cons] at mapped
    cases first : f a with
    | error e =>
      rw [first] at mapped
      cases mapped
    | ok b =>
      rw [first] at mapped
      cases rest : l.mapM f with
      | error e =>
        rw [rest] at mapped
        cases mapped
      | ok bs =>
        rw [rest] at mapped
        cases mapped
        exact .cons first (ih rest)

namespace Allowlist

theorem insert_perm {list : Allowlist} {u : Upstream} (fresh : list.get u.name = none) :
    (list.insert u).upstreams.Perm (u :: list.upstreams) := by
  have other : ∀ v ∈ list.upstreams, v.name ≠ u.name := by
    intro v member same
    have found := get_some.mpr ⟨member, same⟩
    rw [fresh] at found
    cases found
  have after : list.upstreams.filter (fun v => decide (u.name < v.name)) =
      list.upstreams.filter fun v => !decide (v.name < u.name) := by
    refine List.filter_congr fun v member => ?_
    rw [← decide_not, decide_eq_decide, not_lt]
    exact ⟨le_of_lt, fun le => lt_of_le_of_ne le (other v member).symm⟩
  calc (list.insert u).upstreams
      = list.upstreams.filter (fun v => decide (v.name < u.name)) ++
          u :: list.upstreams.filter fun v => decide (u.name < v.name) := rfl
    _ = list.upstreams.filter (fun v => decide (v.name < u.name)) ++
          u :: list.upstreams.filter fun v => !decide (v.name < u.name) := by rw [after]
    List.Perm _ _ := List.perm_middle.trans (.cons u (List.filter_append_perm _ _))

theorem inserted_ok {upstreams : List Upstream} {list list' : Allowlist}
    (built : upstreams.foldlM (fun (list : Allowlist) (u : Upstream) =>
      if (list.get u.name).isSome then Except.error (AllowlistError.duplicate u.name)
      else .ok (list.insert u)) list = .ok list') :
    list'.upstreams.Perm (upstreams ++ list.upstreams) := by
  induction upstreams generalizing list with
  | nil =>
    cases built
    exact .refl _
  | cons u upstreams ih =>
    rw [List.foldlM_cons] at built
    by_cases taken : (list.get u.name).isSome = true
    · rw [if_pos taken] at built
      cases built
    · rw [if_neg taken] at built
      have fresh : list.get u.name = none := by simpa using taken
      calc list'.upstreams
        List.Perm _ (upstreams ++ (list.insert u).upstreams) := ih built
        List.Perm _ (upstreams ++ u :: list.upstreams) := (insert_perm fresh).append_left _
        List.Perm _ (u :: upstreams ++ list.upstreams) := List.perm_middle

/-- An allowlist holds what it was built from, each of them once. -/
theorem fromUpstreams_ok {upstreams : List Upstream} {list : Allowlist}
    (built : fromUpstreams upstreams = .ok list) : upstreams.Perm list.upstreams := by
  have perm := inserted_ok built
  rw [show new.upstreams = [] from rfl, List.append_nil] at perm
  exact perm.symm

end Allowlist

/-- An accepted string: one upstream for each entry, and no other. -/
theorem parseUpstreams_ok {crate : UrlCrate} {raw : String} {list : Allowlist}
    (parsed : parseUpstreams crate raw = .ok list) :
    ∃ upstreams : List Upstream, upstreams.Perm list.upstreams ∧
      List.Forall₂ (fun entry u => parseEntry crate entry = .ok u) (entries raw) upstreams := by
  unfold parseUpstreams at parsed
  cases each : (entries raw).mapM (parseEntry crate) with
  | error e =>
    rw [each] at parsed
    cases parsed
  | ok upstreams =>
    rw [each] at parsed
    exact ⟨upstreams, Allowlist.fromUpstreams_ok (mapError_ok parsed), mapM_ok each⟩

theorem Faithful.clear {crate : UrlCrate} {raw : String} {list : Allowlist}
    (faithful : Faithful crate raw list) : Clear raw := by
  obtain ⟨upstreams, -, force⟩ := faithful
  have both : List.Forall₂ (fun entry u =>
      ((keys entry).Nodup ∧ ("auth" ∈ keys entry → "secret" ∈ keys entry)) ∧
        InForce crate entry u) (entries raw) upstreams :=
    force.imp fun _ _ here => ⟨here.clear, here⟩
  exact ((List.forall₂_and_left _ _).mp both).1

/-- **A configured upstream is in force as it was written** just when no entry repeats a key or
names a scheme without a secret; a string is otherwise refused. -/
theorem upstreams_in_force (crate : UrlCrate) (raw : String) :
    (∃ e, parseUpstreams crate raw = .error e) ∨
      ∃ list, parseUpstreams crate raw = .ok list ∧ (Faithful crate raw list ↔ Clear raw) := by
  cases parsed : parseUpstreams crate raw with
  | error e => exact .inl ⟨e, rfl⟩
  | ok list =>
    refine .inr ⟨list, rfl, Faithful.clear, fun clear => ?_⟩
    obtain ⟨upstreams, perm, each⟩ := parseUpstreams_ok parsed
    have both := (List.forall₂_and_left _ _).mpr ⟨clear, each⟩
    exact ⟨upstreams, perm, both.imp fun _ _ here => inForce_of_clear here.1 here.2⟩

/-! ### A scheme without a secret -/

/-- One registry; nothing else parses. -/
def singleCrate : UrlCrate where
  parse raw :=
    if raw = "https://registry.test/npm/" then
      .ok ⟨"https", "", none, some "registry.test", none, "/npm/", none, none⟩
    else .error "relative URL without a base"
  join _ _ := none
  asStr url := "https://registry.test" ++ url.path
  setPath url path := { url with path }

/-- **A scheme can be dropped**: `auth=basic:ci` is accepted, and the upstream resolves
anonymously. -/
theorem scheme_dropped : ¬ ∀ (crate : UrlCrate) (raw : String) (list : Allowlist),
    parseUpstreams crate raw = .ok list → Faithful crate raw list := by
  intro all
  have dropped := all singleCrate "npm=https://registry.test/npm/,auth=basic:ci" _ rfl
  exact absurd dropped.clear (by decide)

end HullCi.Proxy
