/-
**Step memo keys.**

A step's key is a hash over everything that decides what the step does: the job's context, the
step's definition, the digests of its inputs, its environment and the keys of the steps it needs.
Sets are hashed in their canonical form, sequences in their order, and every part is tagged and
carries its length or its count.

* `keyInput` — the bytes fed to the hasher, or the reason there is no key.
* `planStepKeys` — the keys of a plan in one forward pass.
* `keyInput_eq_iff` — the bytes are the same exactly when everything keyed is.
-/

import HullCi.Base.Framing
import HullCi.Control.Phases
import Mathlib.Data.Prod.Lex

namespace HullCi.Control

open HullCi.Proto HullCi.Base

/-! ### Configuration and context -/

/-- One glob's content digest. -/
structure InputDigest where
  digest : String
  selected : ℕ
  deriving DecidableEq, Repr

inductive DigestError
  | unwired
  | failed (glob detail : String)
  deriving DecidableEq, Repr

def DigestError.text : DigestError → String
  | .unwired => "no subtree digester is wired into this control plane"
  | .failed glob detail => "`" ++ glob ++ "` could not be resolved against the tree: " ++ detail

/-- What layer 2 is wired with, as far as keys are concerned. -/
structure MemoConfig (Tree : Type) where
  digest : String → Tree → String → Except DigestError InputDigest
  pipelineVersion : String

/-- What a step key accounts for of its job. -/
structure JobKeyContext where
  tenant : String
  tier : IsolationTier
  authorClass : AuthorClass
  deriving DecidableEq, Repr

/-- Why a step has no key. -/
inductive NotCacheable
  | noInputs
  | inputsSelectedNothing
  | digestUnavailable (detail : String)
  | dependencyNotCacheable (name : String)
  | undeclaredDependency (name : String)
  deriving DecidableEq, Repr

abbrev KeyResult := Except NotCacheable StepKey

/-! ### The bytes of a key -/

def utf8 (s : String) : List UInt8 :=
  s.toUTF8.data.toList

def stepKeyDomain : List UInt8 :=
  utf8 "hull-ci/step-key/v1"

def tierTag : IsolationTier → UInt8
  | .microVm => 1
  | .container => 2

def authorTag : AuthorClass → UInt8
  | .member => 1
  | .outsider => 2

def lp (bytes : List UInt8) : List UInt8 :=
  framed 8 bytes

/-- A tagged, length-prefixed field. -/
def field (tag : UInt8) (bytes : List UInt8) : List UInt8 :=
  [tag] ++ lp bytes

/-- An ordered sequence. -/
def seq (tag : UInt8) (items : List (List UInt8)) : List UInt8 :=
  [tag] ++ counted 8 lp items

/-- An unordered set: sorted and de-duplicated. -/
def set (tag : UInt8) (items : List String) : List UInt8 :=
  seq tag ((canon items).map utf8)

/-- Two length-prefixed texts, one after the other. -/
def lpPair (p : List UInt8 × List UInt8) : List UInt8 :=
  lp p.1 ++ lp p.2

/-- Counted pairs of texts under a tag. -/
def pairs (tag : UInt8) (items : List (String × String)) : List UInt8 :=
  [tag] ++ counted 8 lpPair (items.map fun p => (utf8 p.1, utf8 p.2))

/-- The timeout as it is hashed: whole seconds, and the largest number for none. -/
def timeoutSecs (timeout : Option Duration) : ℕ :=
  match timeout with
  | none => 2 ^ 64 - 1
  | some d => d / 1000000000

/-- The trimmed globs, sorted and de-duplicated. -/
def keyGlobs (spec : StepSpec) : List String :=
  canon (spec.inputs.map trim)

/-- The environment in the order of its pairs, each pair once. -/
def keyEnv (spec : StepSpec) : List (String × String) :=
  (canon (spec.envAllowlist.map toLex)).map ofLex

/-- The digests of the globs, and whether any of them selected something; the first glob without a
digest ends the loop. -/
def digestGlobs (answer : String → Except DigestError InputDigest) :
    List String → Except NotCacheable (List (String × String) × Bool)
  | [] => .ok ([], false)
  | glob :: globs =>
    match answer glob with
    | .error e => .error (.digestUnavailable e.text)
    | .ok d =>
      match digestGlobs answer globs with
      | .error e => .error e
      | .ok (digests, selected) => .ok ((glob, d.digest) :: digests, 0 < d.selected || selected)

/-- Everything `step_key` feeds to the hasher once no refusal applies. -/
def keyBytes (version : String) (ctx : JobKeyContext) (spec : StepSpec)
    (digests : List (String × String)) (dependencyKeys : List StepKey) : List UInt8 :=
  stepKeyDomain
    ++ (field 0x01 (utf8 ctx.tenant)
    ++ (field 0x02 (utf8 version)
    ++ (field 0x03 [tierTag ctx.tier]
    ++ (field 0x04 [authorTag ctx.authorClass]
    ++ (field 0x10 (utf8 spec.name)
    ++ (field 0x11 (utf8 spec.image)
    ++ (seq 0x12 (spec.argv.map utf8)
    ++ (field 0x13 (leBytes 8 (timeoutSecs spec.timeout))
    ++ (field 0x14 [if spec.continueOnError then 1 else 0]
    ++ (set 0x15 spec.secrets
    ++ (pairs 0x20 digests
    ++ (pairs 0x21 (keyEnv spec)
    ++ set 0x30 dependencyKeys))))))))))))

variable {Tree : Type}

/-- What `step_key` hashes, or the reason it refuses. -/
def keyInput (memo : MemoConfig Tree) (ctx : JobKeyContext) (tree : Tree) (spec : StepSpec)
    (dependencyKeys : List StepKey) : Except NotCacheable (List UInt8) :=
  if spec.inputs.isEmpty then .error .noInputs
  else match digestGlobs (memo.digest ctx.tenant tree) (keyGlobs spec) with
    | .error e => .error e
    | .ok (digests, selected) =>
      if selected then .ok (keyBytes memo.pipelineVersion ctx spec digests dependencyKeys)
      else .error .inputsSelectedNothing

/-- A digit of `hex`. -/
def hexDigit (n : ℕ) : Char :=
  "0123456789abcdef".toList.getD n '0'

def hex (bytes : Vector UInt8 32) : String :=
  String.ofList (bytes.toList.flatMap fun b => [hexDigit (b.toNat / 16), hexDigit (b.toNat % 16)])

/-- One step's key. -/
def stepKey (blake3 : List UInt8 → Vector UInt8 32) (memo : MemoConfig Tree) (ctx : JobKeyContext)
    (tree : Tree) (spec : StepSpec) (dependencyKeys : List StepKey) : KeyResult :=
  (keyInput memo ctx tree spec dependencyKeys).map fun bytes => hex (blake3 bytes)

/-! ### The keys of a plan -/

/-- The keys of the steps that one step needs; the first one without a key is the refusal. -/
def dependencyKeys (specs : List StepSpec) (keys : List KeyResult) :
    List String → Except NotCacheable (List StepKey)
  | [] => .ok []
  | need :: needs =>
    match (specs.findIdx? (·.name = need)).bind (keys[·]?) with
    | some (.ok key) => (dependencyKeys specs keys needs).map (key :: ·)
    | some (.error _) => .error (.dependencyNotCacheable need)
    | none => .error (.undeclaredDependency need)

/-- One round of the loop of `plan_step_keys`. -/
def nextKey (blake3 : List UInt8 → Vector UInt8 32) (memo : MemoConfig Tree) (ctx : JobKeyContext)
    (tree : Tree) (specs : List StepSpec) (keys : List KeyResult) (spec : StepSpec) : KeyResult :=
  match dependencyKeys specs keys spec.needs with
  | .error refusal => .error refusal
  | .ok deps => stepKey blake3 memo ctx tree spec deps

/-- A key for every step of a plan, in one forward pass. -/
def planStepKeys (blake3 : List UInt8 → Vector UInt8 32) (memo : MemoConfig Tree)
    (ctx : JobKeyContext) (tree : Tree) (specs : List StepSpec) : List KeyResult :=
  specs.foldl (fun keys spec => keys ++ [nextKey blake3 memo ctx tree specs keys spec]) []

/-! ### Every part can be read back -/

/-- A buffer of the size every buffer has: its length fits 64 bits. -/
def Sized (bytes : List UInt8) : Prop :=
  bytes.length < 256 ^ 8

instance (bytes : List UInt8) : Decidable (Sized bytes) :=
  inferInstanceAs (Decidable (bytes.length < 256 ^ 8))

theorem utf8_injective {s t : String} (same : utf8 s = utf8 t) : s = t :=
  String.toByteArray_inj.mp (ByteArray.ext (Array.toList_inj.mp same))

theorem unambiguous_lp : Unambiguous Sized lp :=
  unambiguous_framed 8

theorem unambiguous_field (tag : UInt8) : Unambiguous Sized (field tag) :=
  unambiguous_lp.mark [tag]

theorem unambiguous_seq (tag : UInt8) :
    Unambiguous (fun items : List (List UInt8) => items.length < 256 ^ 8 ∧ ∀ b ∈ items, Sized b)
      (seq tag) :=
  (unambiguous_counted 8 unambiguous_lp).mark [tag]

/-- Texts of the sizes that texts have. -/
structure SizedTexts (items : List String) : Prop where
  count : items.length < 256 ^ 8
  texts : ∀ s ∈ items, Sized (utf8 s)

theorem unambiguous_texts (tag : UInt8) :
    Unambiguous SizedTexts fun items => seq tag (items.map utf8) := by
  intro items items' here there rest rest' same
  obtain ⟨same, behind⟩ := unambiguous_seq tag (by simpa using ⟨here.count, here.texts⟩)
    (by simpa using ⟨there.count, there.texts⟩) same
  exact ⟨List.map_injective_iff.mpr (fun _ _ => utf8_injective) same, behind⟩

structure SizedPairs (items : List (String × String)) : Prop where
  count : items.length < 256 ^ 8
  texts : ∀ p ∈ items, Sized (utf8 p.1) ∧ Sized (utf8 p.2)

theorem unambiguous_pairs (tag : UInt8) : Unambiguous SizedPairs (pairs tag) := by
  have coded := (unambiguous_counted 8 (unambiguous_lp.append unambiguous_lp)).mark [tag]
  intro items items' here there rest rest' same
  have sized : ∀ {list : List (String × String)}, SizedPairs list →
      (list.map fun p => (utf8 p.1, utf8 p.2)).length < 256 ^ 8 ∧
        ∀ p ∈ list.map fun p => (utf8 p.1, utf8 p.2), Sized p.1 ∧ Sized p.2 := by
    intro list sized
    refine ⟨by simpa using sized.count, fun p member => ?_⟩
    obtain ⟨q, present, rfl⟩ := List.mem_map.mp member
    exact sized.texts q present
  obtain ⟨same, behind⟩ := coded (sized here) (sized there) same
  refine ⟨List.map_injective_iff.mpr (fun p q same => ?_) same, behind⟩
  obtain ⟨first, second⟩ := Prod.mk.inj same
  exact Prod.ext (utf8_injective first) (utf8_injective second)

theorem length_canon_le {A : Type} [LinearOrder A] (items : List A) :
    (canon items).length ≤ items.length := by
  unfold canon
  exact (List.destutter_sublist _ _).length_le.trans (List.length_insertionSort _ _).le

theorem SizedTexts.canon {items : List String} (sized : SizedTexts items) :
    SizedTexts (canon items) where
  count := (length_canon_le items).trans_lt sized.count
  texts s member := sized.texts s (mem_canon.mp member)

theorem mem_keyEnv {spec : StepSpec} {p : String × String} :
    p ∈ keyEnv spec ↔ p ∈ spec.envAllowlist := by
  unfold keyEnv
  rw [List.mem_map]
  constructor
  · rintro ⟨q, member, rfl⟩
    obtain ⟨p, present, rfl⟩ := List.mem_map.mp (mem_canon.mp member)
    exact present
  · intro member
    exact ⟨toLex p, mem_canon.mpr (List.mem_map_of_mem member), rfl⟩

theorem keyEnv_eq_iff {spec spec' : StepSpec} :
    keyEnv spec = keyEnv spec' ↔ ∀ p, p ∈ spec.envAllowlist ↔ p ∈ spec'.envAllowlist := by
  constructor
  · intro same p
    rw [← mem_keyEnv, same, mem_keyEnv]
  · intro same
    unfold keyEnv
    congr 1
    refine canon_eq_canon.mpr fun q => ?_
    simp only [List.mem_map]
    exact exists_congr fun p => and_congr_left fun _ => same p

/-- A timeout in whole seconds, short of the mark for none. -/
def WholeTimeout (spec : StepSpec) : Prop :=
  ∀ d : ℕ, spec.timeout = some d → d % 1000000000 = 0 ∧ d / 1000000000 < 2 ^ 64 - 1

theorem timeoutSecs_lt {spec : StepSpec} (whole : WholeTimeout spec) :
    timeoutSecs spec.timeout < 256 ^ 8 := by
  unfold timeoutSecs
  cases timeout : spec.timeout with
  | none => exact (by decide : 2 ^ 64 - 1 < 256 ^ 8)
  | some d => exact (whole d timeout).2.trans (by decide)

theorem eq_of_secs {d d' : ℕ} (whole : d % 1000000000 = 0) (whole' : d' % 1000000000 = 0)
    (same : d / 1000000000 = d' / 1000000000) : d = d' := by
  omega

theorem timeoutSecs_injective {spec spec' : StepSpec} (whole : WholeTimeout spec)
    (whole' : WholeTimeout spec') (same : timeoutSecs spec.timeout = timeoutSecs spec'.timeout) :
    spec.timeout = spec'.timeout := by
  unfold timeoutSecs at same
  cases timeout : spec.timeout with
  | none =>
    cases timeout' : spec'.timeout with
    | none => rfl
    | some d =>
      rw [timeout, timeout'] at same
      have small := (whole' d timeout').2
      dsimp only at same
      omega
  | some d =>
    cases timeout' : spec'.timeout with
    | none =>
      rw [timeout, timeout'] at same
      have small := (whole d timeout).2
      dsimp only at same
      omega
    | some d' =>
      rw [timeout, timeout'] at same
      have whole := (whole d timeout).1
      have whole' := (whole' d' timeout').1
      exact congrArg some (eq_of_secs whole whole' same)

/-! ### The digests -/

/-- What the digests of a list of globs are, once there are any. -/
theorem digestGlobs_ok {answer : String → Except DigestError InputDigest} {globs : List String}
    {digests : List (String × String)} {selected : Bool}
    (ok : digestGlobs answer globs = .ok (digests, selected)) :
    digests.map Prod.fst = globs ∧
      (∀ p ∈ digests, ∃ d, answer p.1 = .ok d ∧ d.digest = p.2) ∧
      (selected = true ↔ ∃ glob ∈ globs, ∃ d, answer glob = .ok d ∧ 0 < d.selected) := by
  induction globs generalizing digests selected with
  | nil =>
    obtain ⟨rfl, rfl⟩ := Prod.mk.inj (Except.ok.inj ok)
    simp
  | cons glob globs ih =>
    unfold digestGlobs at ok
    cases first : answer glob with
    | error e =>
      rw [first] at ok
      cases ok
    | ok d =>
      simp only [first] at ok
      cases rest : digestGlobs answer globs with
      | error e =>
        rw [rest] at ok
        cases ok
      | ok later =>
        obtain ⟨digests', selected'⟩ := later
        simp only [rest] at ok
        obtain ⟨rfl, rfl⟩ := Prod.mk.inj (Except.ok.inj ok)
        obtain ⟨globs', answers, some⟩ := ih rest
        refine ⟨by rw [List.map_cons, globs'], ?_, ?_⟩
        · rintro p (_ | ⟨_, member⟩)
          · exact ⟨d, first, rfl⟩
          · exact answers p member
        · simp [first, some]

/-- The pairs of a trimmed glob and its digest. -/
def inputSet (memo : MemoConfig Tree) (ctx : JobKeyContext) (tree : Tree) (spec : StepSpec) :
    Set (String × String) :=
  {p | p.1 ∈ spec.inputs.map trim ∧
    ∃ d, memo.digest ctx.tenant tree p.1 = .ok d ∧ d.digest = p.2}

/-- What `step_key` knows of the inputs when it succeeds. -/
theorem keyInput_ok {memo : MemoConfig Tree} {ctx : JobKeyContext} {tree : Tree} {spec : StepSpec}
    {deps : List StepKey} {bytes : List UInt8} (ok : keyInput memo ctx tree spec deps = .ok bytes) :
    ∃ digests, bytes = keyBytes memo.pipelineVersion ctx spec digests deps ∧
      digests.map Prod.fst = keyGlobs spec ∧
      ∀ p, p ∈ digests ↔ p ∈ inputSet memo ctx tree spec := by
  unfold keyInput at ok
  split_ifs at ok with empty
  cases answered : digestGlobs (memo.digest ctx.tenant tree) (keyGlobs spec) with
  | error e =>
    rw [answered] at ok
    cases ok
  | ok found =>
    obtain ⟨digests, selected⟩ := found
    simp only [answered] at ok
    split_ifs at ok with some
    obtain ⟨globs, answers, -⟩ := digestGlobs_ok answered
    refine ⟨digests, (Except.ok.inj ok).symm, globs, fun p => ⟨fun member => ⟨?_, answers p member⟩,
      ?_⟩⟩
    · have glob : p.1 ∈ keyGlobs spec := globs ▸ List.mem_map_of_mem member
      exact mem_canon.mp glob
    · rintro ⟨glob, d, answer, same⟩
      have listed : p.1 ∈ digests.map Prod.fst := by
        rw [globs]
        exact mem_canon.mpr glob
      obtain ⟨q, member, first⟩ := List.mem_map.mp listed
      obtain ⟨d', answer', same'⟩ := answers q member
      rw [first, answer] at answer'
      obtain rfl := Except.ok.inj answer'
      have equal : q = p := Prod.ext first (same'.symm.trans same)
      exact equal ▸ member

/-- Two lists of digests over canonical globs with the same pairs are one list. -/
theorem digests_eq {spec spec' : StepSpec} {digests digests' : List (String × String)}
    (globs : digests.map Prod.fst = keyGlobs spec) (globs' : digests'.map Prod.fst = keyGlobs spec')
    (same : ∀ p, p ∈ digests ↔ p ∈ digests') : digests = digests' := by
  have strict : ∀ {list : List (String × String)} {spec : StepSpec},
      list.map Prod.fst = keyGlobs spec → list.Pairwise fun p q => p.1 < q.1 := by
    intro list spec globs
    have sorted := pairwise_canon (spec.inputs.map trim)
    rw [show canon (spec.inputs.map trim) = list.map Prod.fst from globs.symm] at sorted
    exact List.pairwise_map.mp sorted
  exact eq_of_strict (fun p => lt_irrefl p.1) (fun p q => lt_asymm) (strict globs) (strict globs')
    same

/-! ### Injectivity -/

/-- Every buffer that is keyed has a size that fits 64 bits, as every buffer of the program has. -/
structure Sizes (memo : MemoConfig Tree) (ctx : JobKeyContext) (tree : Tree) (spec : StepSpec) :
    Prop where
  tenant : Sized (utf8 ctx.tenant)
  version : Sized (utf8 memo.pipelineVersion)
  name : Sized (utf8 spec.name)
  image : Sized (utf8 spec.image)
  argv : SizedTexts spec.argv
  secrets : SizedTexts spec.secrets
  inputs : spec.inputs.length < 256 ^ 8
  digests : ∀ p ∈ inputSet memo ctx tree spec, Sized (utf8 p.1) ∧ Sized (utf8 p.2)
  env : SizedPairs spec.envAllowlist

/-- Everything keyed is the same: sequences as sequences, sets as sets. -/
structure SameKeyed (memo memo' : MemoConfig Tree) (ctx ctx' : JobKeyContext) (tree tree' : Tree)
    (spec spec' : StepSpec) (deps deps' : List StepKey) : Prop where
  tenant : ctx.tenant = ctx'.tenant
  version : memo.pipelineVersion = memo'.pipelineVersion
  tier : ctx.tier = ctx'.tier
  authorClass : ctx.authorClass = ctx'.authorClass
  name : spec.name = spec'.name
  image : spec.image = spec'.image
  argv : spec.argv = spec'.argv
  timeout : spec.timeout = spec'.timeout
  continueOnError : spec.continueOnError = spec'.continueOnError
  secrets : ∀ s, s ∈ spec.secrets ↔ s ∈ spec'.secrets
  inputs : inputSet memo ctx tree spec = inputSet memo' ctx' tree' spec'
  env : ∀ p, p ∈ spec.envAllowlist ↔ p ∈ spec'.envAllowlist
  deps : ∀ k, k ∈ deps ↔ k ∈ deps'

theorem sized_singleton (b : UInt8) : Sized [b] := by
  show 1 < 256 ^ 8
  decide

theorem tierTag_injective {tier tier' : IsolationTier} (same : [tierTag tier] = [tierTag tier']) :
    tier = tier' := by
  revert same
  cases tier <;> cases tier' <;> decide

theorem authorTag_injective {author author' : AuthorClass}
    (same : [authorTag author] = [authorTag author']) : author = author' := by
  revert same
  cases author <;> cases author' <;> decide

theorem flag_injective {b b' : Bool}
    (same : ([if b then 1 else 0] : List UInt8) = [if b' then 1 else 0]) : b = b' := by
  revert same
  cases b <;> cases b' <;> decide

variable {memo memo' : MemoConfig Tree} {ctx ctx' : JobKeyContext} {tree tree' : Tree}
  {spec spec' : StepSpec} {deps deps' : List StepKey}

theorem Sizes.pairs (sizes : Sizes memo ctx tree spec) {digests : List (String × String)}
    (globs : digests.map Prod.fst = keyGlobs spec)
    (listed : ∀ p, p ∈ digests ↔ p ∈ inputSet memo ctx tree spec) : SizedPairs digests where
  count := by
    have length := congrArg List.length globs
    rw [List.length_map] at length
    rw [length]
    refine (length_canon_le _).trans_lt ?_
    rw [List.length_map]
    exact sizes.inputs
  texts p member := sizes.digests p ((listed p).mp member)

theorem Sizes.keyEnv (sizes : Sizes memo ctx tree spec) : SizedPairs (keyEnv spec) where
  count := by
    unfold Control.keyEnv
    rw [List.length_map]
    refine (length_canon_le _).trans_lt ?_
    rw [List.length_map]
    exact sizes.env.count
  texts p member := sizes.env.texts p (mem_keyEnv.mp member)

/-- **The bytes can be read back**, part by part from the front. -/
theorem keyBytes_parts (sizes : Sizes memo ctx tree spec) (sizes' : Sizes memo' ctx' tree' spec')
    (keys : SizedTexts deps) (keys' : SizedTexts deps') {digests digests' : List (String × String)}
    (globs : digests.map Prod.fst = keyGlobs spec) (globs' : digests'.map Prod.fst = keyGlobs spec')
    (listed : ∀ p, p ∈ digests ↔ p ∈ inputSet memo ctx tree spec)
    (listed' : ∀ p, p ∈ digests' ↔ p ∈ inputSet memo' ctx' tree' spec')
    (same : keyBytes memo.pipelineVersion ctx spec digests deps =
      keyBytes memo'.pipelineVersion ctx' spec' digests' deps') :
    (leBytes 8 (timeoutSecs spec.timeout) = leBytes 8 (timeoutSecs spec'.timeout) ∧
      spec.name = spec'.name ∧ ∀ k, k ∈ deps ↔ k ∈ deps') ∧
      (spec.timeout = spec'.timeout →
        SameKeyed memo memo' ctx ctx' tree tree' spec spec' deps deps') := by
  unfold keyBytes at same
  have same := List.append_cancel_left same
  obtain ⟨tenant, same⟩ := unambiguous_field _ sizes.tenant sizes'.tenant same
  obtain ⟨version, same⟩ := unambiguous_field _ sizes.version sizes'.version same
  obtain ⟨tier, same⟩ := unambiguous_field _ (sized_singleton _) (sized_singleton _) same
  obtain ⟨author, same⟩ := unambiguous_field _ (sized_singleton _) (sized_singleton _) same
  obtain ⟨name, same⟩ := unambiguous_field _ sizes.name sizes'.name same
  obtain ⟨image, same⟩ := unambiguous_field _ sizes.image sizes'.image same
  obtain ⟨argv, same⟩ := unambiguous_texts _ sizes.argv sizes'.argv same
  have wide : ∀ n, Sized (leBytes 8 n) := fun n => by
    unfold Sized
    rw [length_leBytes]
    decide
  obtain ⟨timeout, same⟩ := unambiguous_field _ (wide _) (wide _) same
  obtain ⟨lenient, same⟩ := unambiguous_field _ (sized_singleton _) (sized_singleton _) same
  obtain ⟨secrets, same⟩ := unambiguous_texts _ sizes.secrets.canon sizes'.secrets.canon same
  obtain ⟨inputs, same⟩ := unambiguous_pairs _ (sizes.pairs globs listed)
    (sizes'.pairs globs' listed') same
  obtain ⟨env, same⟩ := unambiguous_pairs _ sizes.keyEnv sizes'.keyEnv same
  have last : set 0x30 deps ++ [] = set 0x30 deps' ++ [] := by rw [same]
  obtain ⟨keyed, -⟩ := unambiguous_texts _ keys.canon keys'.canon last
  have name := utf8_injective name
  have keyed := canon_eq_canon.mp keyed
  refine ⟨⟨timeout, name, keyed⟩, fun equal => ⟨utf8_injective tenant, utf8_injective version,
    tierTag_injective tier, authorTag_injective author, name, utf8_injective image, argv, equal,
    flag_injective lenient, canon_eq_canon.mp secrets, ?_, keyEnv_eq_iff.mp env, keyed⟩⟩
  ext p
  rw [← listed, inputs, listed']

theorem keyBytes_congr {digests digests' : List (String × String)}
    (globs : digests.map Prod.fst = keyGlobs spec) (globs' : digests'.map Prod.fst = keyGlobs spec')
    (listed : ∀ p, p ∈ digests ↔ p ∈ inputSet memo ctx tree spec)
    (listed' : ∀ p, p ∈ digests' ↔ p ∈ inputSet memo' ctx' tree' spec')
    (same : SameKeyed memo memo' ctx ctx' tree tree' spec spec' deps deps') :
    keyBytes memo.pipelineVersion ctx spec digests deps =
      keyBytes memo'.pipelineVersion ctx' spec' digests' deps' := by
  have inputs : digests = digests' := digests_eq globs globs' fun p => by
    rw [listed, same.inputs, listed']
  have secrets : canon spec.secrets = canon spec'.secrets := canon_eq_canon.mpr same.secrets
  have keys : canon deps = canon deps' := canon_eq_canon.mpr same.deps
  unfold keyBytes set
  rw [same.tenant, same.version, same.tier, same.authorClass, same.name, same.image, same.argv,
    same.timeout, same.continueOnError, secrets, inputs, keyEnv_eq_iff.mpr same.env, keys]

/-! ### The text of a key -/

theorem hexDigit_injective : ∀ n < 16, ∀ m < 16, hexDigit n = hexDigit m → n = m := by
  decide

theorem hex_injective {bytes bytes' : Vector UInt8 32} (same : hex bytes = hex bytes') :
    bytes = bytes' := by
  have chars : bytes.toList.flatMap (fun b => [hexDigit (b.toNat / 16), hexDigit (b.toNat % 16)])
      = bytes'.toList.flatMap fun b => [hexDigit (b.toNat / 16), hexDigit (b.toNat % 16)] := by
    have chars := congrArg String.toList same
    simpa [hex] using chars
  exact Vector.toList_inj.mp (digits_injective hexDigit_injective chars)

/-- **Memo keys account for everything keyed, and for nothing else.** The bytes of two keys are the
same exactly when everything keyed is; where the hash does not collide on them, so are the keys. -/
theorem keyInput_eq_iff {bytes bytes' : List UInt8} (ok : keyInput memo ctx tree spec deps = .ok bytes)
    (ok' : keyInput memo' ctx' tree' spec' deps' = .ok bytes') (whole : WholeTimeout spec)
    (whole' : WholeTimeout spec') (sizes : Sizes memo ctx tree spec)
    (sizes' : Sizes memo' ctx' tree' spec') (keys : SizedTexts deps) (keys' : SizedTexts deps') :
    (bytes = bytes' ↔ SameKeyed memo memo' ctx ctx' tree tree' spec spec' deps deps') ∧
      ∀ blake3 : List UInt8 → Vector UInt8 32, (blake3 bytes = blake3 bytes' → bytes = bytes') →
        (stepKey blake3 memo ctx tree spec deps = stepKey blake3 memo' ctx' tree' spec' deps' ↔
          SameKeyed memo memo' ctx ctx' tree tree' spec spec' deps deps') := by
  obtain ⟨digests, rfl, globs, listed⟩ := keyInput_ok ok
  obtain ⟨digests', rfl, globs', listed'⟩ := keyInput_ok ok'
  have first : keyBytes memo.pipelineVersion ctx spec digests deps =
      keyBytes memo'.pipelineVersion ctx' spec' digests' deps' ↔
        SameKeyed memo memo' ctx ctx' tree tree' spec spec' deps deps' := by
    refine ⟨fun same => ?_, keyBytes_congr globs globs' listed listed'⟩
    obtain ⟨⟨timeout, -⟩, rest⟩ := keyBytes_parts sizes sizes' keys keys' globs globs' listed
      listed' same
    exact rest (timeoutSecs_injective whole whole'
      (leBytes_injective (timeoutSecs_lt whole) (timeoutSecs_lt whole') timeout))
  refine ⟨first, fun blake3 collisionFree => ?_⟩
  rw [← first]
  unfold stepKey
  rw [ok, ok']
  constructor
  · intro same
    exact collisionFree (hex_injective (Except.ok.inj same))
  · exact fun same => congrArg (fun bytes => Except.ok (hex (blake3 bytes))) same

/-- A digester that answers every glob alike. -/
def constDigest : MemoConfig Unit where
  digest _ _ _ := .ok ⟨"d", 1⟩
  pipelineVersion := "hull-ci/0"

def memberContext : JobKeyContext := ⟨"acme", .container, .member⟩

/-- A step that asks for these secrets. -/
def secretStep (secrets : List String) : StepSpec :=
  { name := "test", image := "rust", argv := ["cargo", "test"], inputs := [" src/** "],
    secrets := secrets }

/-- The bytes of its key. -/
def secretBytes (secrets : List String) : List UInt8 :=
  keyBytes "hull-ci/0" memberContext (secretStep secrets) [(trim " src/** ", "d")] []

theorem secretStep_ok (secrets : List String) :
    keyInput constDigest memberContext () (secretStep secrets) [] = .ok (secretBytes secrets) := rfl

theorem secretStep_sizes {secrets : List String} (sized : SizedTexts secrets) :
    Sizes constDigest memberContext () (secretStep secrets) where
  tenant := by decide +kernel
  version := by decide +kernel
  name := (by decide +kernel : Sized (utf8 "test"))
  image := (by decide +kernel : Sized (utf8 "rust"))
  argv := ⟨(by decide : 2 < 256 ^ 8),
    (by decide +kernel : ∀ s ∈ ["cargo", "test"], Sized (utf8 s))⟩
  secrets := sized
  inputs := (by decide : 1 < 256 ^ 8)
  digests := by
    rintro ⟨glob, digest⟩ ⟨listed, d, answer, same⟩
    obtain rfl := Except.ok.inj answer
    obtain rfl : digest = "d" := same.symm
    obtain rfl : glob = trim " src/** " := List.mem_singleton.mp listed
    exact ⟨by decide +kernel, by decide +kernel⟩
  env := ⟨(by decide : 0 < 256 ^ 8), fun _ member => by cases member⟩

theorem noDeps_sized : SizedTexts [] :=
  ⟨(by decide : 0 < 256 ^ 8), fun _ member => by cases member⟩

/-- Asking for the same secrets in another order, and for one of them twice, keeps the bytes. -/
theorem keyInput_permuted : secretBytes ["a", "b"] = secretBytes ["b", "a", "b"] :=
  (keyInput_eq_iff (secretStep_ok ["a", "b"]) (secretStep_ok ["b", "a", "b"])
    (fun _ timeout => by cases timeout) (fun _ timeout => by cases timeout)
    (secretStep_sizes ⟨by decide, by decide +kernel⟩)
    (secretStep_sizes ⟨by decide, by decide +kernel⟩) noDeps_sized noDeps_sized).1.mpr
      ⟨rfl, rfl, rfl, rfl, rfl, rfl, rfl, rfl, rfl, by simp [secretStep, or_comm], rfl,
        fun _ => .rfl, fun _ => .rfl⟩

end HullCi.Control
