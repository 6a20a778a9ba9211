/-
**Any number of control planes over one key service.**

* `Ordered` — what holds of the service and of the record of its requests at any moment.
* `Binds` — a blob that opens was wrapped for exactly those arguments, under the tenant's key, and
  the key had not been deleted when it opened.
* `Dated` — a wrap succeeds only for the version its own lookup was answered.
* `Survives` — a blob of a key that is still there opens on every control plane.
* `replicas_bind` — the first two in every run, the third in every run in which no `unwrap_dek` for
  a blob of a live key finds another id in its cache, and the versions of such keys fit in 32 bits.
* `stale_cache` — a control plane that remembers a key another one has deleted and made again.
-/

import HullCi.Secrets.Infisical

namespace HullCi.Secrets.Infisical

open HullCi.Base HullCi.Base.Program

/-- The service and the caches, with the record of every call. -/
abbrev Desk := Traced Cloud KmsRequest KmsAnswer

/-- The threads of all control planes. -/
abbrev Desks := Pool Desk KmsRequest KmsAnswer KmsError KmsReply

/-- One call in the record. -/
abbrev Note := Entry KmsRequest KmsAnswer

instance : ∀ op, DecidableEq (KmsAnswer op)
  | .cachedId .. => inferInstanceAs (DecidableEq (Option KeyId))
  | .cacheId .. => inferInstanceAs (DecidableEq Unit)
  | .evictId .. => inferInstanceAs (DecidableEq Unit)
  | .getByName _ => inferInstanceAs (DecidableEq (Except ApiError (KeyId × ℕ)))
  | .create _ => inferInstanceAs (DecidableEq (Except ApiError (KeyId × ℕ)))
  | .encrypt .. => inferInstanceAs (DecidableEq (Except ApiError String))
  | .decrypt .. => inferInstanceAs (DecidableEq (Except ApiError Bytes))
  | .rotate _ => inferInstanceAs (DecidableEq (Except ApiError (KeyId × ℕ)))
  | .delete _ => inferInstanceAs (DecidableEq (Except ApiError Unit))

/-- The key there is under a name was the answer to a lookup. -/
def Note.Looked (e : Note) (caller : Caller KmsRequest) (name : String) (id : KeyId)
    (version : ℕ) : Prop :=
  e = ⟨caller, .getByName name, .ok (id, version)⟩

/-- A plaintext was encrypted. -/
def Note.Wrote (e : Note) (caller : Caller KmsRequest) (id : KeyId) (plaintext : Bytes)
    (ciphertext : String) : Prop :=
  e = ⟨caller, .encrypt id plaintext, .ok ciphertext⟩

/-- A ciphertext was decrypted. -/
def Note.Read (e : Note) (caller : Caller KmsRequest) (id : KeyId) (ciphertext : String)
    (plaintext : Bytes) : Prop :=
  e = ⟨caller, .decrypt id ciphertext, .ok plaintext⟩

/-- A key was deleted. -/
def Note.Deleted (e : Note) (id : KeyId) : Prop :=
  ∃ caller, e = ⟨caller, .delete id, .ok ()⟩

/-! ### The service, call by call -/

/-- What holds of the service and of the record at any moment. -/
structure Ordered (s : Desk) : Prop where
  unique : ∀ {id id' key key'}, s.state.keys.lookup id = some key →
    s.state.keys.lookup id' = some key' → key.name = key'.name → id = id'
  born : ∀ {id key}, s.state.keys.lookup id = some key → id ∈ s.state.born
  single : ∀ e ∈ s.state.issued, ∀ e' ∈ s.state.issued, e.key = e'.key →
    e.ciphertext = e'.ciphertext → e = e'
  written : ∀ e ∈ s.state.issued, ∃ n ∈ s.log, ∃ caller,
    Note.Wrote n caller e.key e.plaintext e.ciphertext
  issued : ∀ n ∈ s.log, ∀ caller id plaintext ciphertext,
    Note.Wrote n caller id plaintext ciphertext → ⟨id, ciphertext, plaintext⟩ ∈ s.state.issued
  looked : ∀ n ∈ s.log, ∀ caller name id version, Note.Looked n caller name id version →
    id ∈ s.state.born ∧ ∀ key, s.state.keys.lookup id = some key → key.name = name
  deleted : ∀ n ∈ s.log, ∀ id, Note.Deleted n id →
    id ∈ s.state.born ∧ s.state.keys.lookup id = none

/-- How a later state stands to an earlier one. -/
structure Since (s s' : Desk) : Prop where
  born : ∀ id ∈ s.state.born, id ∈ s'.state.born
  issued : ∀ e ∈ s.state.issued, e ∈ s'.state.issued
  log : s.log <:+ s'.log
  /-- a key that is gone does not come back -/
  gone : ∀ id ∈ s.state.born, s.state.keys.lookup id = none → s'.state.keys.lookup id = none

theorem Since.refl (s : Desk) : Since s s where
  born := fun _ member => member
  issued := fun _ member => member
  log := List.suffix_rfl
  gone := fun _ _ none => none

theorem Since.trans {s₁ s₂ s₃ : Desk} (first : Since s₁ s₂) (second : Since s₂ s₃) :
    Since s₁ s₃ where
  born := fun id member => second.born id (first.born id member)
  issued := fun e member => second.issued e (first.issued e member)
  log := first.log.trans second.log
  gone := fun id member none => second.gone id (first.born id member) (first.gone id member none)

theorem ordered_new : Ordered ⟨Cloud.new, []⟩ where
  unique := fun found => by cases found
  born := fun found => by cases found
  single := fun e member => by cases member
  written := fun e member => by cases member
  issued := fun n member => by cases member
  looked := fun n member => by cases member
  deleted := fun n member => by cases member

/-- What a call does to the keys and the ciphertexts, and how it answers when it does. -/
inductive Served (s : Cloud) (c : Caller KmsRequest) : Cloud → Note → Prop where
  /-- nothing; a lookup that is answered names a key -/
  | quiet {s' : Cloud} {n : Note} (keys : s'.keys = s.keys) (born : s'.born = s.born)
      (issued : s'.issued = s.issued)
      (wrote : ∀ caller id plaintext ciphertext, ¬ Note.Wrote n caller id plaintext ciphertext)
      (deleted : ∀ id, ¬ Note.Deleted n id)
      (looked : ∀ caller name id version, Note.Looked n caller name id version →
        ∃ key, s.keys.lookup id = some key ∧ key.name = name ∧ key.version = version) :
      Served s c s' n
  | create (name : String) (id : KeyId) (free : s.named name = none) (new : id ∉ s.born) :
      Served s c
        { s with keys := s.keys.insert id { name := name, version := 1 }, born := id :: s.born }
        ⟨c, .create name, .ok (id, 1)⟩
  | encrypt (id : KeyId) (plaintext : Bytes) (ciphertext : String)
      (new : s.opens id ciphertext = none) :
      Served s c { s with issued := ⟨id, ciphertext, plaintext⟩ :: s.issued }
        ⟨c, .encrypt id plaintext, .ok ciphertext⟩
  | rotate (id : KeyId) (key : KmsKey) (found : s.keys.lookup id = some key) :
      Served s c { s with keys := s.keys.insert id { key with version := key.version + 1 } }
        ⟨c, .rotate id, .ok (id, key.version + 1)⟩
  | delete (id : KeyId) (key : KmsKey) (found : s.keys.lookup id = some key) :
      Served s c { s with keys := s.keys.erase id } ⟨c, .delete id, .ok ()⟩

theorem Cloud.named_some {s : Cloud} {name : String} {e : Sigma fun _ : KeyId => KmsKey}
    (found : s.named name = some e) : s.keys.lookup e.1 = some e.2 ∧ e.2.name = name := by
  have member := List.mem_of_find?_eq_some found
  have same := List.find?_some found
  exact ⟨Table.mem_entries.mp member, of_decide_eq_true same⟩

theorem Cloud.named_none {s : Cloud} {name : String} (none : s.named name = none) {id : KeyId}
    {key : KmsKey} (found : s.keys.lookup id = some key) : key.name ≠ name := by
  have out := List.find?_eq_none.mp none ⟨id, key⟩ (Table.mem_entries.mpr found)
  simpa using out

theorem Cloud.opens_some {s : Cloud} {id : KeyId} {ciphertext : String} {e : Issue}
    (found : s.opens id ciphertext = some e) :
    e ∈ s.issued ∧ e.key = id ∧ e.ciphertext = ciphertext := by
  have member := List.mem_of_find?_eq_some found
  have same := List.find?_some found
  exact ⟨member, of_decide_eq_true same⟩

/-- **What a call can do.** -/
theorem served (s : Cloud) (c : Caller KmsRequest) (input : KmsInput) (op : KmsCall) :
    Served s c (serve s input op).1 ⟨c, op, (serve s input op).2⟩ := by
  have refused : ∀ {op : KmsCall} (a : KmsAnswer op),
      (∀ caller id plaintext ciphertext,
        ¬ Note.Wrote ⟨c, op, a⟩ caller id plaintext ciphertext) →
      (∀ id, ¬ Note.Deleted ⟨c, op, a⟩ id) →
      (∀ caller name id version, ¬ Note.Looked ⟨c, op, a⟩ caller name id version) →
      Served s c s ⟨c, op, a⟩ := fun a wrote deleted looked =>
    .quiet rfl rfl rfl wrote deleted fun caller name id version at_ =>
      absurd at_ (looked caller name id version)
  cases op with
  | cachedId => exact refused _ nofun nofun nofun
  | cacheId => exact .quiet rfl rfl rfl nofun nofun nofun
  | evictId => exact .quiet rfl rfl rfl nofun nofun nofun
  | getByName name =>
    simp only [serve, KmsInput.reach]
    split
    · exact refused _ nofun nofun nofun
    · cases found : s.named name with
      | none => exact refused _ nofun nofun nofun
      | some e =>
        refine .quiet rfl rfl rfl nofun nofun ?_
        rintro caller name' id version at_
        cases at_
        exact ⟨e.2, (Cloud.named_some found).1, (Cloud.named_some found).2, rfl⟩
  | create name =>
    simp only [serve, KmsInput.reach]
    split
    · exact refused _ nofun nofun nofun
    · split_ifs with taken used
      · exact refused _ nofun nofun nofun
      · exact refused _ nofun nofun nofun
      · exact .create name input.id (by simpa using taken) used
  | encrypt id plaintext =>
    simp only [serve, KmsInput.reach]
    split
    · exact refused _ nofun nofun nofun
    · cases found : s.keys.lookup id with
      | none => exact refused _ nofun nofun nofun
      | some key =>
        dsimp only
        split_ifs with taken
        · exact refused _ nofun nofun nofun
        · exact .encrypt id plaintext input.ciphertext (by simpa using taken)
  | decrypt id ciphertext =>
    simp only [serve, KmsInput.reach]
    split
    · exact refused _ nofun nofun nofun
    · cases found : s.keys.lookup id with
      | none => exact refused _ nofun nofun nofun
      | some key =>
        dsimp only
        split
        · exact refused _ nofun nofun nofun
        · exact refused _ nofun nofun nofun
  | rotate id =>
    simp only [serve, KmsInput.reach]
    split
    · exact refused _ nofun nofun nofun
    · cases found : s.keys.lookup id with
      | none => exact refused _ nofun nofun nofun
      | some key => exact .rotate id key found
  | delete id =>
    simp only [serve, KmsInput.reach]
    split
    · exact refused _ nofun nofun nofun
    · cases found : s.keys.lookup id with
      | none => exact refused _ nofun nofun nofun
      | some key => exact .delete id key found

/-- What was answered for the ciphertexts there were stands in the longer log. -/
theorem Ordered.written_cons {s : Desk} (ordered : Ordered s) (n : Note) :
    ∀ e ∈ s.state.issued, ∃ n' ∈ n :: s.log, ∃ caller,
      Note.Wrote n' caller e.key e.plaintext e.ciphertext := by
  intro e member
  obtain ⟨n', old, made⟩ := ordered.written e member
  exact ⟨n', List.mem_cons_of_mem _ old, made⟩

/-- A call that makes no key and no ciphertext: the keys that are left have their names, and what
it says of a key is so. -/
theorem Ordered.keep {s : Desk} {s' : Cloud} {n : Note} (ordered : Ordered s)
    (named : ∀ {id key'}, s'.keys.lookup id = some key' →
      ∃ key, s.state.keys.lookup id = some key ∧ key.name = key'.name)
    (gone : ∀ {id}, s.state.keys.lookup id = none → s'.keys.lookup id = none)
    (born : s'.born = s.state.born) (issued : s'.issued = s.state.issued)
    (wrote : ∀ caller id plaintext ciphertext, ¬ Note.Wrote n caller id plaintext ciphertext)
    (deleted : ∀ id, Note.Deleted n id → id ∈ s.state.born ∧ s'.keys.lookup id = none)
    (looked : ∀ caller name id version, Note.Looked n caller name id version →
      ∃ key, s.state.keys.lookup id = some key ∧ key.name = name) :
    Ordered ⟨s', n :: s.log⟩ ∧ Since s ⟨s', n :: s.log⟩ := by
  refine ⟨⟨?_, ?_, ?_, ?_, ?_, ?_, ?_⟩, ⟨?_, ?_, List.suffix_cons _ _, fun _ _ none => gone none⟩⟩
  · intro id₁ id₂ key₁ key₂ found₁ found₂ same
    obtain ⟨old₁, before₁, names₁⟩ := named found₁
    obtain ⟨old₂, before₂, names₂⟩ := named found₂
    exact ordered.unique before₁ before₂ (names₁.trans (same.trans names₂.symm))
  · intro id key found
    obtain ⟨old, before, -⟩ := named found
    show id ∈ s'.born
    rw [born]
    exact ordered.born before
  · rw [issued]
    exact ordered.single
  · rw [issued]
    exact ordered.written_cons n
  · rw [issued]
    intro n' member caller id plaintext ciphertext made
    rcases List.mem_cons.mp member with rfl | old
    · exact absurd made (wrote _ _ _ _)
    · exact ordered.issued n' old _ _ _ _ made
  · rw [born]
    intro n' member caller name id version made
    obtain ⟨there, names⟩ : id ∈ s.state.born ∧
        ∀ key, s.state.keys.lookup id = some key → key.name = name := by
      rcases List.mem_cons.mp member with rfl | old
      · obtain ⟨key, found, same⟩ := looked _ _ _ _ made
        refine ⟨ordered.born found, fun key' found' => ?_⟩
        obtain rfl := Option.some.inj (found.symm.trans found')
        exact same
      · exact ordered.looked n' old _ _ _ _ made
    refine ⟨there, fun key' found' => ?_⟩
    obtain ⟨before, here, same⟩ := named found'
    exact same.symm.trans (names before here)
  · rw [born]
    intro n' member id made
    rcases List.mem_cons.mp member with rfl | old
    · exact deleted id made
    · obtain ⟨there, none⟩ := ordered.deleted n' old _ made
      exact ⟨there, gone none⟩
  · rw [born]
    exact fun _ member => member
  · rw [issued]
    exact fun _ member => member

/-- **Every call keeps the order of the service.** -/
theorem ordered_call {s : Desk} (ordered : Ordered s) (c : Caller KmsRequest) (input : KmsInput)
    (op : KmsCall) : Ordered (traced serve s c input op).1 ∧ Since s (traced serve s c input op).1 := by
  have done := served s.state c input op
  show Ordered ⟨(serve s.state input op).1, ⟨c, op, (serve s.state input op).2⟩ :: s.log⟩ ∧
    Since s ⟨(serve s.state input op).1, ⟨c, op, (serve s.state input op).2⟩ :: s.log⟩
  generalize (serve s.state input op).1 = s' at done ⊢
  generalize (⟨c, op, (serve s.state input op).2⟩ : Note) = n at done ⊢
  have later : s.log <:+ n :: s.log := List.suffix_cons _ _
  cases done with
  | quiet keys born issued wrote deleted looked =>
    refine ordered.keep ?_ ?_ born issued wrote (fun id made => absurd made (deleted id)) ?_
    · rw [keys]
      exact fun found => ⟨_, found, rfl⟩
    · rw [keys]
      exact fun none => none
    · intro caller name id version made
      obtain ⟨key, found, same, -⟩ := looked _ _ _ _ made
      exact ⟨key, found, same⟩
  | create name id free new =>
    have other : ∀ {id' key}, (s.state.keys.insert id { name := name, version := 1 }).lookup id' =
        some key → (id' = id ∧ key.name = name) ∨ s.state.keys.lookup id' = some key := by
      intro id' key found
      rw [Table.lookup_insert] at found
      split at found
      · next same => exact .inl ⟨same, by cases found; rfl⟩
      · exact .inr found
    have kept : ∀ {id'}, id' ∈ s.state.born →
        (s.state.keys.insert id { name := name, version := 1 }).lookup id' =
          s.state.keys.lookup id' := by
      intro id' old
      rw [Table.lookup_insert, if_neg]
      rintro rfl
      exact new old
    refine ⟨⟨?_, ?_, ordered.single, ?_, ?_, ?_, ?_⟩, ⟨?_, fun _ member => member, later, ?_⟩⟩
    · intro id₁ id₂ key₁ key₂ found₁ found₂ same
      rcases other found₁ with ⟨rfl, named₁⟩ | old₁
      · rcases other found₂ with ⟨rfl, -⟩ | old₂
        · rfl
        · exact absurd (same.symm.trans named₁) (Cloud.named_none free old₂)
      · rcases other found₂ with ⟨rfl, named₂⟩ | old₂
        · exact absurd (same.trans named₂) (Cloud.named_none free old₁)
        · exact ordered.unique old₁ old₂ same
    · intro id' key found
      rcases other found with ⟨rfl, -⟩ | old
      · exact List.mem_cons_self
      · exact List.mem_cons_of_mem _ (ordered.born old)
    · exact ordered.written_cons _
    · intro n' member caller id' plaintext ciphertext made
      rcases List.mem_cons.mp member with rfl | old
      · cases made
      · exact ordered.issued n' old _ _ _ _ made
    · intro n' member caller name' id' version made
      rcases List.mem_cons.mp member with rfl | old
      · cases made
      · obtain ⟨born, named⟩ := ordered.looked n' old _ _ _ _ made
        refine ⟨List.mem_cons_of_mem _ born, fun key found => named key ?_⟩
        rwa [kept born] at found
    · intro n' member id' made
      rcases List.mem_cons.mp member with rfl | old
      · obtain ⟨_, made⟩ := made
        cases made
      · obtain ⟨born, gone⟩ := ordered.deleted n' old _ made
        refine ⟨List.mem_cons_of_mem _ born, ?_⟩
        show (s.state.keys.insert id _).lookup id' = none
        rw [kept born, gone]
    · exact fun _ member => List.mem_cons_of_mem _ member
    · intro id' born gone
      show (s.state.keys.insert id _).lookup id' = none
      rw [kept born, gone]
  | encrypt id plaintext ciphertext new =>
    have clash : ∀ e ∈ s.state.issued, e.key = id → e.ciphertext = ciphertext → False := by
      intro e member keys texts
      have out := List.find?_eq_none.mp new e member
      simp [keys, texts] at out
    refine ⟨⟨ordered.unique, ordered.born, ?_, ?_, ?_, ?_, ?_⟩,
      ⟨fun _ member => member, fun _ member => List.mem_cons_of_mem _ member, later,
        fun _ _ none => none⟩⟩
    · intro e member e' member' keys texts
      rcases List.mem_cons.mp member with rfl | old
      · rcases List.mem_cons.mp member' with rfl | old'
        · rfl
        · exact (clash e' old' keys.symm texts.symm).elim
      · rcases List.mem_cons.mp member' with rfl | old'
        · exact (clash e old keys texts).elim
        · exact ordered.single e old e' old' keys texts
    · intro e member
      rcases List.mem_cons.mp member with rfl | old
      · exact ⟨_, List.mem_cons_self, c, rfl⟩
      · exact ordered.written_cons _ e old
    · intro n' member caller id' plaintext' ciphertext' made
      rcases List.mem_cons.mp member with rfl | old
      · cases made
        exact List.mem_cons_self
      · exact List.mem_cons_of_mem _ (ordered.issued n' old _ _ _ _ made)
    · intro n' member caller name id' version made
      rcases List.mem_cons.mp member with rfl | old
      · cases made
      · exact ordered.looked n' old _ _ _ _ made
    · intro n' member id' made
      rcases List.mem_cons.mp member with rfl | old
      · obtain ⟨_, made⟩ := made
        cases made
      · exact ordered.deleted n' old _ made
  | rotate id key found =>
    refine ordered.keep ?_ ?_ rfl rfl nofun ?_ nofun
    · intro id' key' found'
      dsimp only at found'
      rw [Table.lookup_insert] at found'
      split at found'
      · next same =>
        subst same
        cases found'
        exact ⟨key, found, rfl⟩
      · exact ⟨key', found', rfl⟩
    · intro id' none
      dsimp only
      rw [Table.lookup_insert, if_neg, none]
      rintro rfl
      rw [found] at none
      cases none
    · rintro id' ⟨_, made⟩
      cases made
  | delete id key found =>
    refine ordered.keep ?_ ?_ rfl rfl nofun ?_ nofun
    · intro id' key' found'
      dsimp only at found'
      rw [Table.lookup_erase] at found'
      split at found'
      · cases found'
      · exact ⟨key', found', rfl⟩
    · intro id' none
      dsimp only
      rw [Table.lookup_erase, none, ite_self]
    · rintro id' ⟨_, made⟩
      cases made
      exact ⟨ordered.born found, by rw [Table.lookup_erase, if_pos rfl]⟩

/-! ### What a thread returns -/

/-- The contract of the service: it stays ordered, and nothing it did is undone. -/
def desk : Contract Desk KmsRequest KmsInput KmsAnswer where
  handle := traced serve
  inv := Ordered
  rely := Since
  may _ _ _ _ := True
  rely_refl := Since.refl
  rely_trans := Since.trans

theorem desk_keeps : desk.Keeps :=
  fun _ caller input op ordered _ => ordered_call ordered caller input op

variable (keyName : String → String)

/-- A call was answered what a wrap needs. -/
def Wraps (caller : Caller KmsRequest) (tenant : String) (version : UInt32) (dek : Dek) (aad : Bytes)
    (log : List Note) (reply : KmsReply) : Prop :=
  ∃ id ciphertext, reply = .wrapped (asBytes ciphertext) ∧
    (∃ n ∈ log, Note.Looked n caller (keyName tenant) id version.toNat) ∧
    ∃ n ∈ log, Note.Wrote n caller id (sealEnvelope tenant version aad dek) ciphertext

/-- A ciphertext was decrypted under a key that had not been deleted by then. -/
def Unwraps (caller : Caller KmsRequest) (tenant : String) (version : UInt32) (wrapped aad : Bytes)
    (log : List Note) (reply : KmsReply) : Prop :=
  ∃ dek id ciphertext plaintext after n before, reply = .dek dek ∧ log = after ++ n :: before ∧
    Note.Read n caller id ciphertext plaintext ∧ asBytes ciphertext = wrapped ∧
    openEnvelope tenant version aad plaintext = .ok dek ∧
    (∃ n ∈ before, ∃ caller', Note.Wrote n caller' id plaintext ciphertext) ∧
    ∀ n ∈ before, ¬ Note.Deleted n id

/-- What a request that returns leaves in the record. -/
def Returns (caller : Caller KmsRequest) (s : Desk) : Except KmsError KmsReply → Prop
  | .error _ => True
  | .ok reply =>
    match caller.request with
    | .wrapDek _ tenant version dek aad => Wraps keyName caller tenant version dek aad s.log reply
    | .unwrapDek _ tenant version wrapped aad => Unwraps caller tenant version wrapped aad s.log reply
    | _ => True

variable {keyName}

theorem Unwraps.later {caller : Caller KmsRequest} {tenant : String} {version : UInt32}
    {wrapped aad : Bytes} {log log' : List Note} {reply : KmsReply} (later : log <:+ log')
    (unwraps : Unwraps caller tenant version wrapped aad log reply) :
    Unwraps caller tenant version wrapped aad log' reply := by
  obtain ⟨dek, id, ciphertext, plaintext, after, n, before, rfl, rfl, rest⟩ := unwraps
  obtain ⟨front, rfl⟩ := later
  exact ⟨dek, id, ciphertext, plaintext, front ++ after, n, before, rfl,
    (List.append_assoc _ _ _).symm, rest⟩

theorem safe_any {K : Contract Desk KmsRequest KmsInput KmsAnswer} (keeps : K.Keeps) {A : Type}
    {caller : Caller KmsRequest} {Q : Desk → Except KmsError A → Prop} (p : KmsProg A) {s : Desk}
    (always : ∀ s' r, K.rely s s' → K.inv s' → Q s' r) : K.Safe caller Q p s := by
  induction p generalizing s with
  | done value => exact fun s' later fine => always s' _ later fine
  | fail error => exact fun s' later fine => always s' _ later fine
  | call op next ih =>
    refine keeps.safe_call fun s' input later fine may rely inv => ?_
    exact ih _ fun s'' r after fine' => always s'' r (K.rely_trans later (K.rely_trans rely after))
      fine'

theorem parseKey_ok {key : KeyId × ℕ} {id : KeyId} {version : UInt32}
    (parsed : parseKey key = .ok (id, version)) : key = (id, version.toNat) := by
  unfold parseKey at parsed
  split at parsed
  · next small =>
    cases parsed
    exact Prod.ext rfl (UInt32.toNat_ofNat_of_lt' small).symm
  · cases parsed

theorem lookupKey_safe {caller : Caller KmsRequest} (manager : ℕ) (tenant : String) (s : Desk) :
    desk.Safe caller
      (fun s' r => ∀ id version, r = .ok (id, version) →
        ∃ n ∈ s'.log, Note.Looked n caller (keyName tenant) id version.toNat)
      (lookupKey keyName manager tenant) s := by
  refine desk_keeps.safe_call fun s₁ input _ _ _ _ _ => ?_
  have recorded : (⟨caller, .getByName (keyName tenant),
      (desk.handle s₁ caller input (.getByName (keyName tenant))).2⟩ : Note) ∈
        (desk.handle s₁ caller input (.getByName (keyName tenant))).1.log := List.mem_cons_self
  generalize (desk.handle s₁ caller input (.getByName (keyName tenant))).2 = answer at recorded ⊢
  dsimp only [Program.bind]
  split
  · exact fun _ _ _ _ _ same => by cases same
  · exact fun _ _ _ _ _ same => by cases same
  · next key =>
    refine Contract.safe_lift (fun found parsed => ?_) fun _ _ _ _ _ _ _ same => by cases same
    refine desk_keeps.safe_call fun s₂ _ later _ _ cached _ => ?_
    intro s₃ onward _ id version same
    cases same
    rw [parseKey_ok parsed] at recorded
    exact ⟨_, (later.log.trans (cached.log.trans onward.log)).subset recorded, rfl⟩

theorem wrapDek_safe {caller : Caller KmsRequest} (manager : ℕ) (tenant : String)
    (version : UInt32) (dek : Dek) (aad : Bytes) {s : Desk} (ordered : Ordered s) :
    desk.Safe caller
      (fun s' r => ∀ reply, r = .ok reply →
        Wraps keyName caller tenant version dek aad s'.log reply)
      (wrapDek keyName manager tenant version dek aad) s := by
  refine (lookupKey_safe manager tenant s).bind ordered fun s₁ r _ _ looked => ?_
  refine Contract.safe_lift (fun found same => ?_) fun _ _ _ _ _ _ error => by cases error
  obtain ⟨id, current⟩ := found
  obtain ⟨n, member, at_⟩ := looked id current same
  dsimp only
  split
  · exact fun _ _ _ _ error => by cases error
  · next equal =>
    obtain rfl := not_not.mp equal
    refine desk_keeps.safe_call fun s₂ input later _ _ grown _ => ?_
    have recorded : (⟨caller, .encrypt id (sealEnvelope tenant version aad dek),
        (desk.handle s₂ caller input (.encrypt id (sealEnvelope tenant version aad dek))).2⟩ : Note) ∈
          (desk.handle s₂ caller input
            (.encrypt id (sealEnvelope tenant version aad dek))).1.log := List.mem_cons_self
    generalize (desk.handle s₂ caller input
      (.encrypt id (sealEnvelope tenant version aad dek))).2 = answer at recorded ⊢
    dsimp only [Program.bind]
    split
    · next ciphertext =>
      intro s₃ onward _ reply returned
      cases returned
      exact ⟨id, ciphertext, rfl,
        ⟨n, (later.log.trans (grown.log.trans onward.log)).subset member, at_⟩,
        _, onward.log.subset recorded, rfl⟩
    · exact fun _ _ _ _ error => by cases error

theorem serve_decrypt {s s' : Cloud} {input : KmsInput} {id : KeyId} {ciphertext : String}
    {plaintext : Bytes} (ok : serve s input (.decrypt id ciphertext) = (s', .ok plaintext)) :
    (∃ key, s.keys.lookup id = some key) ∧ ⟨id, ciphertext, plaintext⟩ ∈ s.issued := by
  simp only [serve, KmsInput.reach] at ok
  split at ok
  · cases ok
  · cases live : s.keys.lookup id with
    | none =>
      rw [live] at ok
      cases ok
    | some key =>
      rw [live] at ok
      dsimp only at ok
      split at ok
      · cases ok
      · next e found =>
        cases ok
        obtain ⟨member, rfl, rfl⟩ := Cloud.opens_some found
        exact ⟨⟨key, rfl⟩, member⟩

theorem unwrapDek_safe {caller : Caller KmsRequest} (manager : ℕ) (tenant : String)
    (version : UInt32) (wrapped aad : Bytes) {s : Desk} (ordered : Ordered s) :
    desk.Safe caller
      (fun s' r => ∀ reply, r = .ok reply →
        Unwraps caller tenant version wrapped aad s'.log reply)
      (unwrapDek keyName manager tenant version wrapped aad) s := by
  have key : desk.Safe caller (fun _ _ => True) (keyId keyName manager tenant) s :=
    safe_any desk_keeps _ fun _ _ _ _ => trivial
  refine key.bind ordered fun s₁ r _ _ _ => ?_
  refine Contract.safe_lift (fun id _ => ?_) fun _ _ _ _ _ _ error => by cases error
  split
  · exact fun _ _ _ _ error => by cases error
  · next ciphertext text =>
    refine desk_keeps.safe_call fun s₂ input _ fine _ _ _ => ?_
    have logged : (desk.handle s₂ caller input (.decrypt id ciphertext)).1.log =
        ⟨caller, .decrypt id ciphertext, (serve s₂.state input (.decrypt id ciphertext)).2⟩ ::
          s₂.log := rfl
    have answered : (desk.handle s₂ caller input (.decrypt id ciphertext)).2 =
        (serve s₂.state input (.decrypt id ciphertext)).2 := rfl
    generalize made : serve s₂.state input (.decrypt id ciphertext) = result at logged answered
    obtain ⟨s', answer⟩ := result
    rw [answered]
    dsimp only [Program.bind]
    split
    · next envelope =>
      split
      · next dek opened =>
        intro s₃ onward _ reply returned
        cases returned
        obtain ⟨⟨found, live⟩, member⟩ := serve_decrypt made
        obtain ⟨n, old, caller', wrote⟩ := fine.written _ member
        refine Unwraps.later onward.log ?_
        rw [logged]
        refine ⟨dek, id, ciphertext, envelope, [], _, s₂.log, rfl, rfl, rfl,
          fromUTF8_some.mp text, opened, ⟨n, old, caller', wrote⟩, fun n' old' deleted => ?_⟩
        rw [(fine.deleted n' old' id deleted).2] at live
        cases live
      · exact fun _ _ _ _ error => by cases error
    · split
      · exact fun _ _ _ _ error => by cases error
      · exact fun _ _ _ _ error => by cases error
    · exact fun _ _ _ _ error => by cases error

/-- **Every request's program leaves what it should in the record.** -/
theorem body_safe (caller : Caller KmsRequest) {s : Desk} (ordered : Ordered s) :
    desk.Safe caller (Returns keyName caller) (caller.request.body keyName) s := by
  obtain ⟨thread, request⟩ := caller
  cases request with
  | wrapDek manager tenant version dek aad =>
    refine (wrapDek_safe manager tenant version dek aad ordered).weaken fun s' r _ wraps => ?_
    cases r with
    | ok reply => exact wraps reply rfl
    | error error => trivial
  | unwrapDek manager tenant version wrapped aad =>
    refine (unwrapDek_safe manager tenant version wrapped aad ordered).weaken
      fun s' r _ unwraps => ?_
    cases r with
    | ok reply => exact unwraps reply rfl
    | error error => trivial
  | currentVersion | provisionTenant | rotate | shred =>
    refine safe_any desk_keeps _ fun s' r _ _ => ?_
    cases r with
    | ok reply => trivial
    | error error => trivial

/-! ### The threads -/

/-- Fields that the 32-bit lengths count in full. -/
def KmsRequest.Fits : KmsRequest → Prop
  | .wrapDek _ tenant _ _ aad => Short tenant ∧ aad.length < 2 ^ 32
  | _ => True

instance : ∀ r : KmsRequest, Decidable r.Fits
  | .wrapDek .. => inferInstanceAs (Decidable (_ ∧ _))
  | .currentVersion .. | .unwrapDek .. | .provisionTenant .. | .rotate .. | .shred .. =>
    .isTrue trivial

def KmsCall.encrypts : KmsCall → Bool
  | .encrypt .. => true
  | _ => false

/-- An encryption is the last call of a wrap, of its own envelope. -/
def KmsRequest.Shaped (r : KmsRequest) :
    (op : KmsCall) → (KmsAnswer op → KmsProg KmsReply) → Prop
  | .encrypt _ plaintext, next => ∃ manager tenant version dek aad,
    r = .wrapDek manager tenant version dek aad ∧
      plaintext = sealEnvelope tenant version aad dek ∧
      ∀ ciphertext, next (.ok ciphertext) = .done (.wrapped (asBytes ciphertext))
  | _, _ => True

theorem shaped_plain {r : KmsRequest} (op : KmsCall) (next : KmsAnswer op → KmsProg KmsReply)
    (plain : op.encrypts = false) : r.Shaped op next := by
  cases op with
  | encrypt => cases plain
  | _ => trivial

/-- A program that encrypts nothing. -/
def Plain {A : Type} (p : KmsProg A) : Prop :=
  p.Every fun op _ => op.encrypts = false

theorem Plain.bind {A B : Type} {p : KmsProg B} {f : B → KmsProg A} (first : Plain p)
    (rest : ∀ b, Plain (f b)) : Plain (p >>= f) :=
  every_bind first rest

theorem plain_lift {A B : Type} {r : Except KmsError B} {f : B → KmsProg A}
    (rest : ∀ b, Plain (f b)) : Plain (lift r >>= f) :=
  every_lift rest

theorem plain_call {A : Type} {op : KmsCall} {next : KmsAnswer op → KmsProg A}
    (plain : op.encrypts = false) (rest : ∀ answer, Plain (next answer)) :
    Plain (.call op next) :=
  ⟨plain, rest⟩

theorem plain_cached {A : Type} {manager : ℕ} {tenant : String} {id : KeyId} (value : A) :
    Plain (request (KmsCall.cacheId manager tenant id) >>= fun _ => .done value) :=
  plain_call rfl fun _ => trivial

theorem lookupKey_plain (manager : ℕ) (tenant : String) :
    Plain (lookupKey keyName manager tenant) := by
  refine plain_call rfl fun answer => ?_
  dsimp only [Program.bind]
  split
  · trivial
  · trivial
  · exact plain_lift fun found => plain_cached found

theorem keyId_plain (manager : ℕ) (tenant : String) : Plain (keyId keyName manager tenant) := by
  refine plain_call rfl fun answer => ?_
  dsimp only [Program.bind]
  split
  · trivial
  · exact (lookupKey_plain manager tenant).bind fun _ => trivial

theorem body_plain {r : KmsRequest} (other : ∀ m t v d a, r ≠ .wrapDek m t v d a) :
    Plain (r.body keyName) := by
  have named : ∀ {key : KeyId × ℕ} {manager tenant}, Plain (lift (parseKey key) >>= fun found =>
      request (KmsCall.cacheId manager tenant found.1) >>= fun _ =>
        (.done (KmsReply.version found.2) : KmsProg KmsReply)) :=
    plain_lift fun found => plain_cached (KmsReply.version found.2)
  cases r with
  | wrapDek => exact absurd rfl (other _ _ _ _ _)
  | currentVersion manager tenant => exact (lookupKey_plain manager tenant).bind fun _ => trivial
  | unwrapDek manager tenant version wrapped aad =>
    refine (keyId_plain manager tenant).bind fun id => ?_
    split
    · trivial
    · refine plain_call rfl fun answer => ?_
      dsimp only [Program.bind]
      split
      · split <;> trivial
      · split <;> trivial
      · trivial
  | provisionTenant manager tenant =>
    refine plain_call rfl fun answer => ?_
    dsimp only [Program.bind]
    split
    · exact named
    · refine plain_call rfl fun answer => ?_
      dsimp only [Program.bind]
      split
      · exact named
      · split
        · refine plain_call rfl fun answer => ?_
          dsimp only [Program.bind]
          split
          · exact named
          · trivial
        · trivial
      · trivial
    · trivial
  | rotate manager tenant =>
    refine (keyId_plain manager tenant).bind fun id => plain_call rfl fun answer => ?_
    dsimp only [Program.bind]
    split
    · exact plain_lift fun _ => trivial
    · trivial
  | shred manager tenant =>
    refine (keyId_plain manager tenant).bind fun id => plain_call rfl fun answer => ?_
    refine plain_call rfl fun _ => ?_
    dsimp only [Program.bind]
    split
    · trivial
    · trivial
    · trivial

theorem body_shaped (r : KmsRequest) : (r.body keyName).Every r.Shaped := by
  by_cases wrap : ∃ m t v d a, r = .wrapDek m t v d a
  · obtain ⟨manager, tenant, version, dek, aad, rfl⟩ := wrap
    refine every_bind ((lookupKey_plain manager tenant).mono fun op next plain =>
      shaped_plain op _ plain) fun found => ?_
    dsimp only
    split
    · trivial
    · next equal =>
      refine ⟨⟨manager, tenant, version, dek, aad, rfl, rfl, fun ciphertext => rfl⟩, ?_⟩
      intro answer
      dsimp only [Program.bind]
      split
      · trivial
      · trivial
  · refine (body_plain fun m t v d a same => wrap ⟨m, t, v, d, a, same⟩).mono ?_
    exact fun op next plain => shaped_plain op next plain

/-- The threads before any request. -/
def start : Desks :=
  Pool.idle ⟨Cloud.new, []⟩

variable (keyName) in
/-- One turn of the control planes. -/
def turn (p : Desks) (t : Turn KmsRequest KmsInput) : Desks :=
  p.step (traced serve) (KmsRequest.body keyName) t

variable (keyName) in
/-- The threads after a run. -/
def after (turns : List (Turn KmsRequest KmsInput)) : Desks :=
  run (turn keyName) start turns

/-- Every encryption in the record was a wrap's, which returned its ciphertext. -/
structure Kept (p : Desks) : Prop where
  fits : ∀ (i : ℕ) (r : KmsRequest) (program : KmsProg KmsReply),
    p.threads[i]? = some (r, program) → r.Fits
  every : ∀ (i : ℕ) (r : KmsRequest) (program : KmsProg KmsReply),
    p.threads[i]? = some (r, program) → program.Every r.Shaped
  returned : ∀ n ∈ p.shared.log, ∀ caller id plaintext ciphertext,
    Note.Wrote n caller id plaintext ciphertext →
    p.threads[caller.thread]? = some (caller.request, .done (.wrapped (asBytes ciphertext))) ∧
      ∃ manager tenant version dek aad,
        caller.request = .wrapDek manager tenant version dek aad ∧
          plaintext = sealEnvelope tenant version aad dek
  once : ∀ n ∈ p.shared.log, ∀ n' ∈ p.shared.log,
    ∀ caller id plaintext ciphertext caller' id' plaintext' ciphertext',
      Note.Wrote n caller id plaintext ciphertext →
      Note.Wrote n' caller' id' plaintext' ciphertext' → caller.thread = caller'.thread → n = n'

theorem kept_start : Kept start where
  fits := fun i r program here => by cases here
  every := fun i r program here => by cases here
  returned := fun n member => by cases member
  once := fun n member => by cases member

/-- What is assumed of a turn where nothing is assumed of the service. -/
def Fitting : Turn KmsRequest KmsInput → Prop
  | .start request => request.Fits
  | .turn .. => True

theorem kept_turn (p : Desks) (t : Turn KmsRequest KmsInput) (kept : Kept p) (fitting : Fitting t) :
    Kept (turn keyName p t) := by
  have fits : ∀ (i : ℕ) (r : KmsRequest) (program : KmsProg KmsReply),
      (turn keyName p t).threads[i]? = some (r, program) → r.Fits := by
    intro i r program here
    rcases Pool.request_before here with ⟨program', before⟩ | ⟨rfl, -, -⟩
    · exact kept.fits i r program' before
    · exact fitting
  have every : ∀ (i : ℕ) (r : KmsRequest) (program : KmsProg KmsReply),
      (turn keyName p t).threads[i]? = some (r, program) → program.Every r.Shaped :=
    fun i r program here =>
      every_step (P := KmsRequest.Shaped) body_shaped kept.every t here
  have stays : ∀ {i : ℕ} {r : KmsRequest} {reply : KmsReply},
      p.threads[i]? = some (r, .done reply) →
        (turn keyName p t).threads[i]? = some (r, .done reply) :=
    fun here => Pool.ended_step t here fun op next same => by cases same
  have old : ∀ n ∈ p.shared.log, ∀ caller id plaintext ciphertext,
      Note.Wrote n caller id plaintext ciphertext →
      (turn keyName p t).threads[caller.thread]? =
          some (caller.request, .done (.wrapped (asBytes ciphertext))) ∧
        ∃ manager tenant version dek aad,
          caller.request = .wrapDek manager tenant version dek aad ∧
            plaintext = sealEnvelope tenant version aad dek := by
    intro n member caller id plaintext ciphertext wrote
    obtain ⟨here, shape⟩ := kept.returned n member caller id plaintext ciphertext wrote
    exact ⟨stays here, shape⟩
  obtain ⟨r, rfl, started⟩ | ⟨thread, input, r, op, next, rfl, here, turned⟩ | same :=
    p.step_cases (traced serve) (KmsRequest.body keyName) t
  · have log : (turn keyName p (.start r)).shared.log = p.shared.log := by
      unfold turn
      rw [started]
    refine ⟨fits, every, ?_, ?_⟩
    · rw [log]
      exact old
    · rw [log]
      exact kept.once
  · have log : (turn keyName p (.turn thread input)).shared.log =
        ⟨⟨thread, r⟩, op, (serve p.shared.state input op).2⟩ :: p.shared.log := by
      unfold turn
      rw [turned]
      rfl
    have now : (turn keyName p (.turn thread input)).threads[thread]? =
        some (r, next (serve p.shared.state input op).2) := by
      unfold turn
      rw [turned]
      have bound : thread < p.threads.length := by
        by_contra beyond
        rw [List.getElem?_eq_none (by omega)] at here
        cases here
      exact List.getElem?_set_self bound
    have unmade : ∀ n ∈ p.shared.log, ∀ caller id plaintext ciphertext,
        Note.Wrote n caller id plaintext ciphertext → caller.thread ≠ thread := by
      intro n member caller id plaintext ciphertext wrote same
      have done := (kept.returned n member caller id plaintext ciphertext wrote).1
      rw [same, here] at done
      cases done
    refine ⟨fits, every, ?_, ?_⟩
    · rw [log]
      intro n member caller id plaintext ciphertext wrote
      rcases List.mem_cons.mp member with rfl | before
      · unfold Note.Wrote at wrote
        simp only [Entry.mk.injEq] at wrote
        obtain ⟨rfl, rfl, answered⟩ := wrote
        obtain ⟨manager, tenant, version, dek, aad, rfl, rfl, ends⟩ :=
          (kept.every thread r _ here).1
        rw [now, eq_of_heq answered, ends]
        exact ⟨rfl, manager, tenant, version, dek, aad, rfl, rfl⟩
      · exact old n before caller id plaintext ciphertext wrote
    · rw [log]
      intro n member n' member' caller id plaintext ciphertext caller' id' plaintext' ciphertext'
        wrote wrote' same
      rcases List.mem_cons.mp member with rfl | before
      · have mine : caller = ⟨thread, r⟩ := (Entry.mk.inj wrote).1.symm
        rcases List.mem_cons.mp member' with rfl | before'
        · rfl
        · exact absurd (same.symm.trans (congrArg Caller.thread mine))
            (unmade n' before' _ _ _ _ wrote')
      · rcases List.mem_cons.mp member' with rfl | before'
        · have mine : caller' = ⟨thread, r⟩ := (Entry.mk.inj wrote').1.symm
          exact absurd (same.trans (congrArg Caller.thread mine)) (unmade n before _ _ _ _ wrote)
        · exact kept.once n before n' before' _ _ _ _ _ _ _ _ wrote wrote' same
  · have unchanged : turn keyName p t = p := same
    rw [unchanged]
    exact kept

/-! ### What the control planes keep to -/

variable (keyName)

/-- A `wrap_dek` for these arguments returned this ciphertext: it was encrypted under the key that
the wrap's own lookup of the tenant's key was answered, at this version. -/
structure Wrapped (p : Desks) (caller : Caller KmsRequest) (manager : ℕ) (tenant : String)
    (version : UInt32) (dek : Dek) (aad : Bytes) (id : KeyId) (ciphertext : String) : Prop where
  request : caller.request = .wrapDek manager tenant version dek aad
  returned : p.outcome caller.thread = some (caller.request, .ok (.wrapped (asBytes ciphertext)))
  looked : ∃ n ∈ p.shared.log, Note.Looked n caller (keyName tenant) id version.toNat
  wrote : ∃ n ∈ p.shared.log, Note.Wrote n caller id (sealEnvelope tenant version aad dek) ciphertext

/-- A DEK comes back from `unwrap_dek` only for a blob that `wrap_dek` returned for exactly these
arguments, under a key of the tenant that had not been deleted when the blob was decrypted. -/
def Binds (p : Desks) : Prop :=
  ∀ i manager tenant version wrapped aad dek,
    p.outcome i = some (.unwrapDek manager tenant version wrapped aad, .ok (.dek dek)) →
    ∃ caller manager' id ciphertext,
      Wrapped keyName p caller manager' tenant version dek aad id ciphertext ∧
        asBytes ciphertext = wrapped ∧
        ∃ later n before plaintext, p.shared.log = later ++ n :: before ∧
          Note.Read n ⟨i, .unwrapDek manager tenant version wrapped aad⟩ id ciphertext plaintext ∧
          (∃ n ∈ before,
            Note.Wrote n caller id (sealEnvelope tenant version aad dek) ciphertext) ∧
          ∀ n ∈ before, ¬ Note.Deleted n id

/-- A wrap succeeds only for the version that its own lookup was answered: the current one then. -/
def Dated (p : Desks) : Prop :=
  ∀ i manager tenant version dek aad reply,
    p.outcome i = some (.wrapDek manager tenant version dek aad, .ok reply) →
    ∃ id, ∃ n ∈ p.shared.log,
      Note.Looked n ⟨i, .wrapDek manager tenant version dek aad⟩ (keyName tenant) id version.toNat

/-- An `unwrap_dek` that is handed a blob of a key, and ends while that key is still there, returns
the DEK, on whatever control plane it runs. -/
def Survives (turns : List (Turn KmsRequest KmsInput)) : Prop :=
  ∀ front back manager tenant version wrapped aad,
    turns = front ++ .start (.unwrapDek manager tenant version wrapped aad) :: back →
    ∀ caller manager' dek id ciphertext,
      Wrapped keyName (after keyName front) caller manager' tenant version dek aad id ciphertext →
      asBytes ciphertext = wrapped →
      ∀ key, (after keyName turns).shared.state.keys.lookup id = some key →
      ∀ r, (after keyName turns).outcome (after keyName front).threads.length =
        some (.unwrapDek manager tenant version wrapped aad, r) → r = .ok (.dek dek)

/-- The service is the ideal one: the requests of an `unwrap_dek` are answered. -/
def Answered (caller : Caller KmsRequest) (input : KmsInput) : Prop :=
  match caller.request with
  | .unwrapDek .. => input.fault = none
  | _ => True

/-- What is read of a key: an id in the cache is the key's, and its version fits in 32 bits. -/
def Steady (s : Desk) (id : KeyId) (key : KmsKey) : KmsCall → Prop
  | .cachedId manager tenant => ∀ id' ∈ s.state.cache.lookup (manager, tenant), id' = id
  | .getByName _ => key.version < 2 ^ 32
  | _ => True

/-- What an `unwrap_dek` for a blob of the tenant's live key reads is steady. -/
def Warm (s : Desk) (caller : Caller KmsRequest) (op : KmsCall) : Prop :=
  match caller.request with
  | .unwrapDek _ tenant _ wrapped _ =>
    ∀ e ∈ s.state.issued, asBytes e.ciphertext = wrapped →
      ∀ key ∈ s.state.keys.lookup e.key, key.name = keyName tenant → Steady s e.key key op
  | _ => True

instance (caller : Caller KmsRequest) (input : KmsInput) : Decidable (Answered caller input) := by
  unfold Answered
  split <;> infer_instance

instance (s : Desk) (id : KeyId) (key : KmsKey) (op : KmsCall) :
    Decidable (Steady s id key op) := by
  unfold Steady
  split <;> infer_instance

instance (s : Desk) (caller : Caller KmsRequest) (op : KmsCall) :
    Decidable (Warm keyName s caller op) := by
  unfold Warm
  split
  · refine @List.decidableBAll _ _ ?_ _
    intro e
    refine @instDecidableForall _ _ inferInstance ?_
    refine @Option.decidableForallMem _ _ ?_ _
    intro key
    infer_instance
  · infer_instance

/-- The contract of the ideal service. -/
def ideal : Contract Desk KmsRequest KmsInput KmsAnswer :=
  { desk with may := fun _ caller input _ => Answered caller input }

/-- The contract of the ideal service, where no cache is stale. -/
def warm : Contract Desk KmsRequest KmsInput KmsAnswer :=
  { desk with may := fun s caller input op => Answered caller input ∧ Warm keyName s caller op }

instance (s : Desk) (caller : Caller KmsRequest) (input : KmsInput) (op : KmsCall) :
    Decidable (ideal.may s caller input op) :=
  inferInstanceAs (Decidable (Answered caller input))

instance (s : Desk) (caller : Caller KmsRequest) (input : KmsInput) (op : KmsCall) :
    Decidable ((warm keyName).may s caller input op) :=
  inferInstanceAs (Decidable (_ ∧ _))

/-- A run of the control planes over a service, where each turn meets what the contract assumes and
the fields of the requests fit. -/
def Runs (K : Contract Desk KmsRequest KmsInput KmsAnswer)
    (turns : List (Turn KmsRequest KmsInput)) : Prop :=
  Along (turn keyName) (K.Admits fun _ request => request.Fits) start turns

instance (K : Contract Desk KmsRequest KmsInput KmsAnswer)
    [∀ s caller input op, Decidable (K.may s caller input op)]
    (turns : List (Turn KmsRequest KmsInput)) : Decidable (Runs keyName K turns) :=
  inferInstanceAs (Decidable (Along _ _ _ _))

variable {keyName}

/-! ### Proof -/

/-- A run whose requests fit. -/
abbrev Fits (keyName : String → String) (turns : List (Turn KmsRequest KmsInput)) : Prop :=
  Along (turn keyName) (fun _ t => Fitting t) start turns

theorem desk_good {turns : List (Turn KmsRequest KmsInput)} (along : Fits keyName turns) :
    desk.Good (Returns keyName) (after keyName turns) ∧ Kept (after keyName turns) := by
  have admitted : Along (turn keyName) (desk.Admits fun _ request => request.Fits) start turns := by
    refine along_mono (fun p t fits => ?_) along
    cases t with
    | start request => exact fits
    | turn => exact fun _ _ _ _ => trivial
  have good : desk.Good (Returns keyName) (after keyName turns) :=
    Contract.good_run (K := desk) (fun p i request good _ => body_safe ⟨i, request⟩ good.inv)
      (Contract.good_idle ordered_new) admitted
  exact ⟨good, run_invariant_along kept_turn kept_start along⟩

theorem dated_after {turns : List (Turn KmsRequest KmsInput)} (fitting : Fits keyName turns) :
    Dated keyName (after keyName turns) := by
  intro i manager tenant version dek aad reply ended
  obtain ⟨id, ciphertext, -, looked, -⟩ :=
    (desk_good fitting).1.returned (Pool.outcome_ok.mp ended)
  exact ⟨id, looked⟩

theorem binds_after {turns : List (Turn KmsRequest KmsInput)} (fitting : Fits keyName turns) :
    Binds keyName (after keyName turns) := by
  obtain ⟨good, kept⟩ := desk_good fitting
  intro i manager tenant version wrapped aad dek ended
  obtain ⟨dek₁, id, ciphertext, plaintext, later, n, before, same, log, read, blob, opened,
    ⟨n', member', caller, wrote⟩, undeleted⟩ := good.returned (Pool.outcome_ok.mp ended)
  obtain rfl : dek = dek₁ := by cases same; rfl
  have inLog : n' ∈ (after keyName turns).shared.log := by
    rw [log]
    exact List.mem_append_right _ (List.mem_cons_of_mem _ member')
  obtain ⟨done, manager', tenant', version', dek', aad', served, rfl⟩ :=
    kept.returned n' inLog caller id plaintext ciphertext wrote
  have fits := kept.fits _ _ _ done
  rw [served] at fits
  obtain ⟨rfl, rfl, rfl, rfl⟩ := (openEnvelope_iff fits.1 fits.2).mp opened
  have own := good.returned done
  rw [show Returns keyName ⟨caller.thread, caller.request⟩ _ _ =
    Returns keyName caller _ _ from rfl] at own
  unfold Returns at own
  simp only [served] at own
  obtain ⟨id₁, ciphertext₁, -, looked, m, inLog₁, wrote₁⟩ := own
  have one := kept.once n' inLog m inLog₁ _ _ _ _ _ _ _ _ wrote wrote₁ rfl
  subst one
  obtain ⟨-, calls, answers⟩ := Entry.mk.inj (wrote.symm.trans wrote₁)
  cases calls
  cases eq_of_heq answers
  refine ⟨caller, manager', id, ciphertext, ⟨served, Pool.outcome_ok.mpr done, looked,
    n', inLog, wrote⟩, blob, later, n, before, _, log, read, ⟨n', member', wrote⟩, undeleted⟩

variable (keyName) in
theorem warm_keeps : (warm keyName).Keeps :=
  fun _ caller input op ordered _ => ordered_call ordered caller input op

/-- A key that is gone makes nothing of what is still to come. -/
theorem safe_gone {A : Type} {caller : Caller KmsRequest} {id : KeyId} {s : Desk}
    (born : id ∈ s.state.born) (gone : s.state.keys.lookup id = none) (p : KmsProg A)
    {Q : Desk → Except KmsError A → Prop}
    (vacuous : ∀ s' r, s'.state.keys.lookup id = none → Q s' r) :
    (warm keyName).Safe caller Q p s :=
  safe_any (warm_keeps keyName) p fun s' r later _ => vacuous s' r (later.gone id born gone)

section Opening

variable {caller : Caller KmsRequest} {manager : ℕ} {tenant : String} {version : UInt32}
  {wrapped aad : Bytes} {id : KeyId} {ciphertext : String} {plaintext : Bytes} {s : Desk}

/-- The key of a blob, seen from a thread that is to open it. -/
structure Opening (keyName : String → String) (caller : Caller KmsRequest) (manager : ℕ)
    (tenant : String) (version : UInt32) (wrapped aad : Bytes) (id : KeyId) (ciphertext : String)
    (plaintext : Bytes) (s : Desk) : Prop where
  request : caller.request = .unwrapDek manager tenant version wrapped aad
  issued : ⟨id, ciphertext, plaintext⟩ ∈ s.state.issued
  looked : ∃ n ∈ s.log, ∃ caller' v, Note.Looked n caller' (keyName tenant) id v
  blob : asBytes ciphertext = wrapped

theorem Opening.later {s' : Desk}
    (o : Opening keyName caller manager tenant version wrapped aad id ciphertext plaintext s)
    (later : Since s s') :
    Opening keyName caller manager tenant version wrapped aad id ciphertext plaintext s' where
  request := o.request
  issued := later.issued _ o.issued
  looked := by
    obtain ⟨n, member, rest⟩ := o.looked
    exact ⟨n, later.log.subset member, rest⟩
  blob := o.blob

theorem Opening.named
    (o : Opening keyName caller manager tenant version wrapped aad id ciphertext plaintext s)
    (ordered : Ordered s) :
    id ∈ s.state.born ∧ ∀ key, s.state.keys.lookup id = some key → key.name = keyName tenant := by
  obtain ⟨n, member, caller', v, looked⟩ := o.looked
  exact ordered.looked n member _ _ _ _ looked

theorem Opening.may
    (o : Opening keyName caller manager tenant version wrapped aad id ciphertext plaintext s)
    (ordered : Ordered s) {input : KmsInput} {op : KmsCall}
    (may : (warm keyName).may s caller input op) {key : KmsKey}
    (live : s.state.keys.lookup id = some key) :
    input.fault = none ∧ Steady s id key op := by
  obtain ⟨answered, clean⟩ := may
  unfold Answered at answered
  unfold Warm at clean
  simp only [o.request] at answered clean
  exact ⟨answered, clean _ o.issued o.blob key live ((o.named ordered).2 key live)⟩

theorem serve_getByName {s : Desk} (ordered : Ordered s) {input : KmsInput}
    (answered : input.fault = none) {name : String} {key : KmsKey}
    (live : s.state.keys.lookup id = some key) (named : key.name = name) :
    (serve s.state input (.getByName name)).2 = .ok (id, key.version) := by
  simp only [serve, KmsInput.reach, answered]
  cases found : s.state.named name with
  | none => exact absurd named (Cloud.named_none found live)
  | some e =>
    obtain ⟨there, same⟩ := Cloud.named_some found
    have one := ordered.unique live there (named.trans same.symm)
    subst one
    rw [live] at there
    obtain rfl := Option.some.inj there
    rfl

theorem serve_decrypt_issued {s : Desk} (ordered : Ordered s) {input : KmsInput}
    (answered : input.fault = none) {key : KmsKey} (live : s.state.keys.lookup id = some key)
    (issued : ⟨id, ciphertext, plaintext⟩ ∈ s.state.issued) :
    (serve s.state input (.decrypt id ciphertext)).2 = .ok plaintext := by
  simp only [serve, KmsInput.reach, answered, live]
  cases found : s.state.opens id ciphertext with
  | none =>
    have out := List.find?_eq_none.mp found _ issued
    simp at out
  | some e =>
    obtain ⟨member, keys, texts⟩ := Cloud.opens_some found
    obtain rfl := ordered.single e member _ issued keys texts
    rfl

/-- **The id that an `unwrap_dek` works with is that of the blob's key**, while the key is there. -/
theorem keyId_warm
    (o : Opening keyName caller manager tenant version wrapped aad id ciphertext plaintext s) :
    (warm keyName).Safe caller
      (fun s' r => ∀ key, s'.state.keys.lookup id = some key → r = .ok id)
      (keyId keyName manager tenant) s := by
  refine (warm_keeps keyName).safe_call fun s₁ input later ordered may grown inv => ?_
  have o₁ := o.later later
  have answer : ((warm keyName).handle s₁ caller input (.cachedId manager tenant)).2 =
      s₁.state.cache.lookup (manager, tenant) := rfl
  have same : ((warm keyName).handle s₁ caller input (.cachedId manager tenant)).1.state =
      s₁.state := rfl
  have o₁' := o₁.later grown
  generalize ((warm keyName).handle s₁ caller input (.cachedId manager tenant)).1 = s₁' at *
  cases live : s₁.state.keys.lookup id with
  | none =>
    rw [← same] at live
    refine safe_gone (o₁'.named inv).1 live _ fun s' r gone key found => ?_
    rw [gone] at found
    cases found
  | some key =>
    have cached := (o₁.may ordered may live).2
    rw [answer]
    dsimp only [Program.bind]
    split
    · next id' hit =>
      obtain rfl := cached id' hit
      exact fun _ _ _ _ _ => rfl
    · refine (warm_keeps keyName).safe_call fun s₂ input₂ later₂ ordered₂ may₂ grown₂ inv₂ => ?_
      have o₂ := o₁'.later later₂
      have o₂' := o₂.later grown₂
      cases live₂ : s₂.state.keys.lookup id with
      | none =>
        have gone₂ := grown₂.gone id (o₂.named ordered₂).1 live₂
        refine safe_gone (o₂'.named inv₂).1 gone₂ _ fun s' r gone key found => ?_
        rw [gone] at found
        cases found
      | some key₂ =>
        obtain ⟨answered, small⟩ := o₂.may ordered₂ may₂ live₂
        have answer₂ : ((warm keyName).handle s₂ caller input₂ (.getByName (keyName tenant))).2 =
            .ok (id, key₂.version) :=
          serve_getByName ordered₂ answered live₂ ((o₂.named ordered₂).2 key₂ live₂)
        have parsed : parseKey (id, key₂.version) = .ok (id, UInt32.ofNat key₂.version) :=
          if_pos small
        rw [answer₂]
        dsimp only [Program.bind]
        rw [parsed]
        refine (warm_keeps keyName).safe_call fun s₃ _ _ _ _ _ _ => ?_
        exact fun _ _ _ _ _ => rfl

/-- **A blob of a live key opens.** -/
theorem unwrapDek_warm {dek : Dek}
    (o : Opening keyName caller manager tenant version wrapped aad id ciphertext plaintext s)
    (ordered : Ordered s) (opened : openEnvelope tenant version aad plaintext = .ok dek) :
    (warm keyName).Safe caller
      (fun s' r => ∀ key, s'.state.keys.lookup id = some key → r = .ok (.dek dek))
      (unwrapDek keyName manager tenant version wrapped aad) s := by
  refine (keyId_warm o).bind ordered fun s₁ r later ordered₁ found => ?_
  have o₁ := o.later later
  cases live : s₁.state.keys.lookup id with
  | none =>
    refine safe_gone (o₁.named ordered₁).1 live _ fun s' r gone key found => ?_
    rw [gone] at found
    cases found
  | some key =>
    obtain rfl := found key live
    have text : String.fromUTF8? wrapped.toByteArray = some ciphertext := fromUTF8_some.mpr o.blob
    rw [lift_ok, bind_done, text]
    refine (warm_keeps keyName).safe_call fun s₂ input later₂ ordered₂ may grown inv => ?_
    have o₂ := o₁.later later₂
    cases live₂ : s₂.state.keys.lookup id with
    | none =>
      have gone₂ := grown.gone id (o₂.named ordered₂).1 live₂
      refine safe_gone ((o₂.later grown).named inv).1 gone₂ _ fun s' r gone key found => ?_
      rw [gone] at found
      cases found
    | some key₂ =>
      have answer : ((warm keyName).handle s₂ caller input (.decrypt id ciphertext)).2 =
          .ok plaintext :=
        serve_decrypt_issued ordered₂ (o₂.may ordered₂ may live₂).1 live₂ o₂.issued
      rw [answer]
      dsimp only [Program.bind]
      rw [opened]
      exact fun _ _ _ _ _ => rfl

end Opening

theorem runs_fits {turns : List (Turn KmsRequest KmsInput)}
    {K : Contract Desk KmsRequest KmsInput KmsAnswer} (runs : Runs keyName K turns) :
    Fits keyName turns := by
  refine along_mono (fun p t admits => ?_) runs
  cases t with
  | start request => exact admits
  | turn => trivial

theorem warm_good {turns : List (Turn KmsRequest KmsInput)}
    (runs : Runs keyName (warm keyName) turns) :
    (warm keyName).Good (fun _ _ _ => True) (after keyName turns) :=
  Contract.good_run (K := warm keyName)
    (fun _ _ _ _ _ => safe_any (warm_keeps keyName) _ fun _ _ _ _ => trivial)
    (Contract.good_idle ordered_new) runs

theorem survives_after {turns : List (Turn KmsRequest KmsInput)}
    (runs : Runs keyName (warm keyName) turns) : Survives keyName turns := by
  rintro front back manager tenant version wrapped aad rfl caller manager' dek id ciphertext made blob
    key live r ended
  have fits := runs_fits runs
  have along := along_append.mp runs
  obtain ⟨good, kept⟩ := desk_good (along_append.mp fits).1
  -- the blob was encrypted under the key before the request came
  obtain ⟨n, member, wrote⟩ := made.wrote
  have shape := (kept.returned n member _ _ _ _ wrote).1
  have own := kept.fits _ _ _ shape
  rw [made.request] at own
  have opening : Opening keyName ⟨(after keyName front).threads.length,
      .unwrapDek manager tenant version wrapped aad⟩ manager tenant version wrapped aad id ciphertext
      (sealEnvelope tenant version aad dek) (after keyName front).shared :=
    { request := rfl
      issued := good.inv.issued n member _ _ _ _ wrote
      looked := by
        obtain ⟨n', member', looked⟩ := made.looked
        exact ⟨n', member', _, _, looked⟩
      blob := blob }
  have safe := unwrapDek_warm opening good.inv
    ((openEnvelope_iff own.1 own.2).mpr ⟨rfl, rfl, rfl, rfl⟩)
  -- the thread stays safe from its start to the end of the run
  have split : after keyName (front ++ .start (.unwrapDek manager tenant version wrapped aad) :: back)
      = run (turn keyName) (turn keyName (after keyName front)
          (.start (.unwrapDek manager tenant version wrapped aad))) back := by
    unfold after
    rw [run_append, run_cons]
  have started : (turn keyName (after keyName front)
      (.start (.unwrapDek manager tenant version wrapped aad))).threads[
        (after keyName front).threads.length]? =
      some (.unwrapDek manager tenant version wrapped aad,
        KmsRequest.body keyName (.unwrapDek manager tenant version wrapped aad)) :=
    List.getElem?_concat_length
  obtain ⟨program, here, ends⟩ := Contract.follow_run (K := warm keyName)
    (fun _ _ _ _ _ => safe_any (warm_keeps keyName) _ fun _ _ _ _ => trivial)
    (Contract.good_step (fun _ _ _ _ _ => safe_any (warm_keeps keyName) _ fun _ _ _ _ => trivial)
      (warm_good along.1) along.2.1) along.2.2 started safe
  have final := (warm_good runs).inv
  rw [split] at ended live final
  cases r with
  | ok value =>
    have done := Pool.outcome_ok.mp ended
    cases Option.some.inj (here.symm.trans done)
    exact ends _ (Since.refl _) final key live
  | error error =>
    have done := Pool.outcome_error.mp ended
    cases Option.some.inj (here.symm.trans done)
    exact ends _ (Since.refl _) final key live

/-- **The control planes keep to an authenticated context** in every run of an ideal service in which
no `unwrap_dek` for a blob of a live key finds the id of another key in its cache, and the versions
of such keys fit in 32 bits. -/
theorem replicas_bind (cfg : InfisicalConfig) (turns : List (Turn KmsRequest KmsInput))
    (runs : Runs cfg.keyName (warm cfg.keyName) turns) :
    Binds cfg.keyName (after cfg.keyName turns) ∧ Dated cfg.keyName (after cfg.keyName turns) ∧
      Survives cfg.keyName turns :=
  ⟨binds_after (runs_fits runs), dated_after (runs_fits runs), survives_after runs⟩

/-! ### Two runs -/

/-- The name of this tenant's key starts with what the hash crate makes of it. -/
def someConfig : InfisicalConfig where
  keyNamePrefix := "hull-ci"
  blake3Hex := fun _ => "bb7fdb40e0deec734b06f04f72c90df36bf87995ea70dc5138b476bb01542bed"

/-- A request, and its thread's turns; a new key has the id, a new ciphertext is the text. -/
def asked (thread : ℕ) (request : KmsRequest) (calls : ℕ) (id : KeyId) (ciphertext : String) :
    List (Turn KmsRequest KmsInput) :=
  .start request :: List.replicate calls (.turn thread ⟨none, id, ciphertext⟩)

def someDek : Dek := Vector.replicate 32 7

/-- Wrapped on one control plane, rotated, and opened on another. -/
def rotatedRun : List (Turn KmsRequest KmsInput) :=
  asked 0 (.provisionTenant 0 "acme") 3 1 "" ++
  asked 1 (.wrapDek 0 "acme" 1 someDek [1, 2]) 3 0 "text" ++
  asked 2 (.rotate 0 "acme") 2 0 "" ++
  asked 3 (.unwrapDek 1 "acme" 1 (asBytes "text") [1, 2]) 4 0 ""

/-- The second control plane has looked the key up; the first deletes it, makes it again and wraps
under the new one. -/
def staleFront : List (Turn KmsRequest KmsInput) :=
  asked 0 (.provisionTenant 0 "acme") 3 1 "" ++
  asked 1 (.currentVersion 1 "acme") 2 0 "" ++
  asked 2 (.shred 0 "acme") 3 0 "" ++
  asked 3 (.provisionTenant 0 "acme") 3 2 "" ++
  asked 4 (.wrapDek 0 "acme" 1 someDek [1, 2]) 3 0 "text"

/-- Then the second is to open the blob. -/
def staleRun : List (Turn KmsRequest KmsInput) :=
  staleFront ++ asked 5 (.unwrapDek 1 "acme" 1 (asBytes "text") [1, 2]) 2 0 ""

theorem replicas_bind_once :
    (Binds someConfig.keyName (after someConfig.keyName rotatedRun) ∧
      Dated someConfig.keyName (after someConfig.keyName rotatedRun) ∧
      Survives someConfig.keyName rotatedRun) ∧
    (after someConfig.keyName rotatedRun).outcome 3 =
      some (.unwrapDek 1 "acme" 1 (asBytes "text") [1, 2], .ok (.dek someDek)) :=
  ⟨replicas_bind someConfig rotatedRun (by decide +kernel), by decide +kernel⟩

/-- **A control plane that remembers a deleted key opens nothing of the new one.** -/
theorem stale_cache : ¬ ∀ (cfg : InfisicalConfig) (turns : List (Turn KmsRequest KmsInput)),
    Runs cfg.keyName ideal turns →
      Binds cfg.keyName (after cfg.keyName turns) ∧ Dated cfg.keyName (after cfg.keyName turns) ∧
        Survives cfg.keyName turns := by
  intro all
  obtain ⟨-, -, survives⟩ := all someConfig staleRun (by decide +kernel)
  have made : Wrapped someConfig.keyName (after someConfig.keyName staleFront)
      ⟨4, .wrapDek 0 "acme" 1 someDek [1, 2]⟩ 0 "acme" 1 someDek [1, 2] 2 "text" :=
    { request := rfl
      returned := by decide +kernel
      looked := ⟨⟨⟨4, .wrapDek 0 "acme" 1 someDek [1, 2]⟩,
        .getByName (someConfig.keyName "acme"), .ok (2, 1)⟩, by decide +kernel, rfl⟩
      wrote := ⟨⟨⟨4, .wrapDek 0 "acme" 1 someDek [1, 2]⟩,
        .encrypt 2 (sealEnvelope "acme" 1 [1, 2] someDek), .ok "text"⟩, by decide +kernel, rfl⟩ }
  have live : (after someConfig.keyName staleRun).shared.state.keys.lookup 2 =
      some ⟨someConfig.keyName "acme", 1⟩ := by
    decide +kernel
  have refused : (after someConfig.keyName staleRun).outcome
      (after someConfig.keyName staleFront).threads.length =
        some (.unwrapDek 1 "acme" 1 (asBytes "text") [1, 2], .error (.secret .decrypt)) := by
    decide +kernel
  have opened := survives staleFront _ 1 "acme" 1 (asBytes "text") [1, 2] rfl _ 0 someDek 2 "text" made
    rfl _ live _ refused
  cases opened

end HullCi.Secrets.Infisical
