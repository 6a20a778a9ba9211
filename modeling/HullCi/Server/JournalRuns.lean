/-
**What the directory of the journal holds after any run.**

* `turn_turned` — one system call of a thread does to the directory what `mark` does to the ledger,
  and leaves the scratch files of the other threads alone.
* `turn_accounts` — and to the thread's own account.
* `sound_step`, `sound_run` — one step, and a run.
* `journal_on_disk` — the directory holds the ledger's journal: every entry is whole, there is none
  besides, and what a call answered is what it did to the ledger.
* `recorded_survives` — an answered `record` outlives the process.
-/

import HullCi.Server.FileJournal

namespace HullCi.Server

open HullCi.Base HullCi.Proto HullCi.Control

namespace FileJournal

section Turns

variable {codec : Codec} {dir : String}

/-- The bytes of the intent that a call records. -/
def Carries (codec : Codec) (call : Call) (bytes : List UInt8) : Prop :=
  ∃ intent, call = .record intent ∧ bytes = codec.toVec intent

/-- What a thread relies on before its next system call. -/
def Ready (codec : Codec) (disk : Disk String UInt8) (pid : ℕ) (call : Call) : Frame → Prop
  | .numbering bytes => call.jobId ≠ "" ∧ Carries codec call bytes
  | .creating _ bytes => call.jobId ≠ "" ∧ Carries codec call bytes
  | .writing n file left => call.jobId ≠ "" ∧
    disk.names.lookup (tmpName call.jobId pid n) = some file ∧
    Carries codec call (disk.files file ++ left)
  | .syncing n file => call.jobId ≠ "" ∧
    disk.names.lookup (tmpName call.jobId pid n) = some file ∧ Carries codec call (disk.files file)
  | .publishing n => call.jobId ≠ "" ∧ ∃ file,
    disk.names.lookup (tmpName call.jobId pid n) = some file ∧ disk.synced file = true ∧
    Carries codec call (disk.files file)
  | .removing _ _ => ∃ intent, call = .record intent
  | .unlinking => call.jobId ≠ "" ∧ ∃ jobId, call = .forget jobId
  | _ => True

theorem Carries.records {call : Call} {bytes : List UInt8} (carries : Carries codec call bytes) :
    ∃ intent, call = .record intent := by
  obtain ⟨intent, same, -⟩ := carries
  exact ⟨intent, same⟩

theorem ready_untouched {disk disk' : Disk String UInt8} {pid : ℕ} {call : Call} {frame : Frame}
    (ready : Ready codec disk pid call frame)
    (untouched : ∀ n, frame.number = some n → disk.Untouched disk' (tmpName call.jobId pid n)) :
    Ready codec disk' pid call frame := by
  cases frame with
  | writing n file left =>
    obtain ⟨filled, bound, carries⟩ := ready
    obtain ⟨names, kept⟩ := untouched n rfl
    exact ⟨filled, names ▸ bound, (kept file bound).1.symm ▸ carries⟩
  | syncing n file =>
    obtain ⟨filled, bound, carries⟩ := ready
    obtain ⟨names, kept⟩ := untouched n rfl
    exact ⟨filled, names ▸ bound, (kept file bound).1.symm ▸ carries⟩
  | publishing n =>
    obtain ⟨filled, file, bound, safe, carries⟩ := ready
    obtain ⟨names, kept⟩ := untouched n rfl
    exact ⟨filled, file, names ▸ bound, (kept file bound).2.symm ▸ safe,
      (kept file bound).1.symm ▸ carries⟩
  | _ => exact ready

/-- What is left to write: more writes, or the `fsync`. -/
theorem ready_writeAll {disk : Disk String UInt8} {pid : ℕ} {call : Call} {n file : ℕ}
    {left : List UInt8} (filled : call.jobId ≠ "")
    (bound : disk.names.lookup (tmpName call.jobId pid n) = some file)
    (carries : Carries codec call (disk.files file ++ left)) :
    Ready codec disk pid call (writeAll n file left) := by
  unfold writeAll
  by_cases empty : left = []
  · rw [if_pos empty]
    rw [empty, List.append_nil] at carries
    exact ⟨filled, bound, carries⟩
  · rw [if_neg empty]
    exact ⟨filled, bound, carries⟩

theorem number_writeAll (n file : ℕ) (left : List UInt8) :
    (writeAll n file left).number = some n := by
  unfold writeAll
  split_ifs <;> rfl

/-- A directory that differs in a scratch name only still holds the journal, and so does every state
it may fall back to. -/
theorem mirrors_scratch {disk disk' : Disk String UInt8} {l : Ledger}
    (mirrors : Mirrors codec disk l) (kept : disk.Kept IsEntry disk')
    (pushed : disk'.dirs = disk'.names :: disk.dirs)
    (same : ∀ name, IsEntry name → disk'.names.lookup name = disk.names.lookup name) :
    Mirrors codec disk' (l.happen .nothing) := by
  have rest := mirrors.kept kept
  unfold Mirrors
  rw [pushed]
  exact .cons ((List.forall₂_cons.mp rest).1.same same) rest

theorem mirrors_still {disk disk' : Disk String UInt8} {l : Ledger}
    (mirrors : Mirrors codec disk l) (kept : disk.Kept IsEntry disk')
    (dirs : disk'.dirs = disk.dirs) : Mirrors codec disk' l := by
  unfold Mirrors
  rw [dirs]
  exact mirrors.kept kept

theorem entry_ne_scratch {name : String} (entry : IsEntry name) (jobId : JobId) (pid n : ℕ) :
    name ≠ tmpName jobId pid n := fun same => tmpName_hidden jobId pid n (same ▸ entry)

/-- **Publishing**: the entry is the whole intent, at once. -/
theorem mirrors_rename {disk : Disk String UInt8} {l : Ledger} {intent : JobIntent} {pid n file : ℕ}
    (mirrors : Mirrors codec disk l) (filled : intent.jobId ≠ "")
    (bound : disk.names.lookup (tmpName intent.jobId pid n) = some file)
    (whole : disk.files file = codec.toVec intent) (thread : ℕ) :
    Mirrors codec (disk.rename (tmpName intent.jobId pid n) (entryName intent.jobId))
      (l.happen (.op thread (.record intent))) := by
  have rest : List.Forall₂ (Holds codec (disk.rename (tmpName intent.jobId pid n)
      (entryName intent.jobId))) disk.dirs l.all := mirrors.kept fun _ _ => rfl
  have lookups := @Disk.Settled.lookup_renamed _ _ _ disk _ (entryName intent.jobId) _ bound
  have now := (List.forall₂_cons.mp rest).1
  refine .cons ⟨?_, ?_, ?_⟩ rest
  · intro name file' entry bound'
    rw [lookups] at bound'
    split_ifs at bound' with same gone
    · exact ⟨intent.jobId, filled, same⟩
    · exact now.named name file' entry bound'
  · intro jobId filled'
    have old := now.reads jobId filled'
    unfold Disk.readIn at old ⊢
    rw [lookups, if_neg (entry_ne_scratch (entryName_isEntry filled') _ _ _)]
    show _ = ((l.now.record intent).get jobId).map codec.toVec
    rw [Journal.get_record]
    by_cases same : jobId = intent.jobId
    · rw [if_pos (congrArg entryName same), if_pos same, Option.map_some, Option.map_some]
      exact congrArg some whole
    · rw [if_neg fun names => same (entryName_inj names), if_neg same]
      exact old
  · intro jobId intent' found
    have found' : (l.now.record intent).get jobId = some intent' := found
    rw [Journal.get_record] at found'
    split_ifs at found' with same
    · exact same ▸ filled
    · exact now.filled jobId intent' found'

/-- Dropping an entry. -/
theorem mirrors_unlink {disk : Disk String UInt8} {l : Ledger} {jobId : JobId}
    (mirrors : Mirrors codec disk l) (thread : ℕ) :
    Mirrors codec (disk.unlink (entryName jobId)) (l.happen (.op thread (.forget jobId))) := by
  have rest : List.Forall₂ (Holds codec (disk.unlink (entryName jobId))) disk.dirs l.all :=
    mirrors.kept fun _ _ => rfl
  have now := (List.forall₂_cons.mp rest).1
  have lookups : ∀ name, (disk.unlink (entryName jobId)).names.lookup name =
      if name = entryName jobId then none else disk.names.lookup name :=
    fun name => Table.lookup_erase _ _ _
  refine .cons ⟨?_, ?_, ?_⟩ rest
  · intro name file entry bound
    rw [lookups] at bound
    split_ifs at bound
    exact now.named name file entry bound
  · intro jobId' filled
    have old := now.reads jobId' filled
    unfold Disk.readIn at old ⊢
    rw [lookups]
    show _ = ((l.now.forget jobId).get jobId').map codec.toVec
    rw [Journal.get_forget]
    by_cases same : jobId' = jobId
    · rw [if_pos (congrArg entryName same), if_pos same]
      rfl
    · rw [if_neg fun names => same (entryName_inj names), if_neg same]
      exact old
  · intro jobId' intent found
    have found' : (l.now.forget jobId).get jobId' = some intent := found
    rw [Journal.get_forget] at found'
    split_ifs at found'
    exact now.filled jobId' intent found'

/-- What a loss of power brings back is a journal there was. -/
theorem mirrors_lose {disk : Disk String UInt8} {l : Ledger} (settled : disk.Settled IsEntry)
    (mirrors : Mirrors codec disk l) (back : ℕ) (garbage : ℕ → List UInt8) :
    Mirrors codec (disk.lose back garbage) (l.happen (.lost back)) := by
  have rest := mirrors.kept (settled.kept_lose back garbage)
  have sizes := rest.length_eq
  refine .cons ?_ .nil
  show Holds codec (disk.lose back garbage) (disk.dirs[back]?.getD disk.names)
    (l.all[back]?.getD l.now)
  by_cases inside : back < disk.dirs.length
  · rw [List.getElem?_eq_getElem inside, List.getElem?_eq_getElem (sizes ▸ inside)]
    exact (List.forall₂_iff_get.mp rest).2 back inside (sizes ▸ inside)
  · rw [List.getElem?_eq_none (by omega), List.getElem?_eq_none (by omega)]
    exact (List.forall₂_cons.mp rest).1

/-- What one turn of a thread comes to. -/
structure Turned (codec : Codec) (s s' : FileJournal) (call : Call) (frame frame' : Frame)
    (l' : Ledger) : Prop where
  settled : s'.disk.Settled IsEntry
  mirrors : Mirrors codec s'.disk l'
  ready : Ready codec s'.disk s'.pid call frame'
  pid : s'.pid = s.pid
  spares : ∀ name, ¬ IsEntry name →
    (∀ n, frame.number = some n → name ≠ tmpName call.jobId s.pid n) →
    s.disk.Untouched s'.disk name
  seq : s.seq ≤ s'.seq
  number : frame'.number = none ∨ frame'.number = frame.number ∨
    frame'.number = some s.seq ∧ s'.seq = s.seq + 1

/-- A turn that does nothing to the disk. -/
theorem turned_idle {s : FileJournal} {l : Ledger} {call : Call} {frame frame' : Frame}
    (settled : s.disk.Settled IsEntry) (mirrors : Mirrors codec s.disk l)
    (ready : Ready codec s.disk s.pid call frame')
    (number : frame'.number = none ∨ frame'.number = frame.number) :
    Turned codec s s call frame frame' l where
  settled := settled
  mirrors := mirrors
  ready := ready
  pid := rfl
  spares := fun name _ _ => Disk.Untouched.refl name
  seq := Nat.le_refl _
  number := number.imp_right .inl

variable (dir) in
theorem turn_turned {s : FileJournal} {l : Ledger} {call : Call} {frame : Frame}
    (settled : s.disk.Settled IsEntry) (mirrors : Mirrors codec s.disk l)
    (ready : Ready codec s.disk s.pid call frame) (thread : ℕ) (reply : Reply) :
    Turned codec s (turn dir s call frame reply).1 call frame (turn dir s call frame reply).2
      ((mark thread call frame reply).foldl Ledger.happen l) := by
  have hidden := tmpName_hidden call.jobId s.pid
  cases frame with
  | numbering bytes =>
    exact ⟨settled, mirrors, ready, rfl, fun name _ _ => Disk.Untouched.refl name,
      Nat.le_succ _, .inr (.inr ⟨rfl, rfl⟩)⟩
  | creating n bytes =>
    cases reply with
    | err why => exact turned_idle settled mirrors trivial (.inl rfl)
    | ok written =>
      obtain ⟨filled, carries⟩ := ready
      refine ⟨settled.create (hidden n), ?_, ?_, rfl, ?_, Nat.le_refl _,
        .inr (.inl (number_writeAll _ _ _))⟩
      · refine mirrors_scratch mirrors (settled.kept_create (hidden n)) rfl fun name entry => ?_
        exact (Table.lookup_insert _ _ _ _).trans (if_neg (entry_ne_scratch entry _ _ _))
      · refine ready_writeAll filled ((Table.lookup_insert _ _ _ _).trans (if_pos rfl)) ?_
        show Carries codec call (Function.update s.disk.files _ [] _ ++ bytes)
        rw [Function.update_self]
        exact carries
      · exact fun name _ other => settled.untouched_create (other n rfl)
  | writing n file left =>
    obtain ⟨filled, bound, carries⟩ := ready
    cases reply with
    | err why => exact turned_idle settled mirrors carries.records (.inr rfl)
    | ok written =>
      have unseen := settled.not_shown (hidden n) bound
      refine ⟨settled.write unseen _, mirrors_still mirrors
        (Disk.Settled.kept_write file unseen _) rfl, ?_, rfl, ?_, Nat.le_refl _, ?_⟩
      · show Ready codec _ s.pid call (afterWrite call.jobId n file left written)
        unfold afterWrite
        by_cases nothing : written = 0
        · rw [if_pos nothing]
          exact carries.records
        · rw [if_neg nothing]
          refine ready_writeAll filled bound ?_
          show Carries codec call (Function.update s.disk.files file _ file ++ left.drop written)
          rw [Function.update_self, List.append_assoc, List.take_append_drop]
          exact carries
      · exact fun name _ other => settled.untouched_file bound (other n rfl) rfl fun _ apart =>
          ⟨Function.update_of_ne apart _ _, Function.update_of_ne apart _ _⟩
      · right
        left
        show (afterWrite call.jobId n file left written).number = some n
        unfold afterWrite
        split_ifs
        · rfl
        · exact number_writeAll _ _ _
  | syncing n file =>
    obtain ⟨filled, bound, carries⟩ := ready
    cases reply with
    | err why => exact turned_idle settled mirrors carries.records (.inr rfl)
    | ok written =>
      refine ⟨settled.sync file, mirrors_still mirrors (fun _ _ => rfl) rfl,
        ⟨filled, file, bound, Function.update_self _ _ _, carries⟩, rfl, ?_, Nat.le_refl _,
        .inr (.inl rfl)⟩
      exact fun name _ other => settled.untouched_file bound (other n rfl) rfl fun _ apart =>
        ⟨rfl, Function.update_of_ne apart _ _⟩
  | publishing n =>
    obtain ⟨filled, file, bound, safe, intent, rfl, whole⟩ := ready
    cases reply with
    | err why => exact turned_idle settled mirrors ⟨intent, rfl⟩ (.inr rfl)
    | ok written =>
      refine ⟨settled.rename (hidden n) (entryName_isEntry filled) bound safe,
        mirrors_rename mirrors filled bound whole thread, trivial, rfl, ?_, Nat.le_refl _,
        .inl rfl⟩
      intro name scratch other
      exact Disk.Settled.untouched_rename bound (other n rfl)
        fun same => scratch (same ▸ entryName_isEntry filled)
  | removing n error =>
    cases reply with
    | err why => exact turned_idle settled mirrors trivial (.inl rfl)
    | ok written =>
      refine ⟨settled.unlink _, mirrors_scratch mirrors (fun _ _ => rfl) rfl fun name entry => ?_,
        trivial, rfl, ?_, Nat.le_refl _, .inl rfl⟩
      · exact (Table.lookup_erase _ _ _).trans (if_neg (entry_ne_scratch entry _ _ _))
      · exact fun name _ other => Disk.Settled.untouched_unlink (other n rfl)
  | unlinking =>
    cases reply with
    | err why => exact turned_idle settled mirrors trivial (.inl rfl)
    | ok written =>
      obtain ⟨filled, jobId, rfl⟩ := ready
      refine ⟨settled.unlink _, mirrors_unlink mirrors thread, trivial, rfl, ?_,
        Nat.le_refl _, .inl rfl⟩
      intro name scratch _
      exact Disk.Settled.untouched_unlink
        fun same => scratch (same ▸ entryName_isEntry filled)
  | _ => exact turned_idle settled mirrors trivial (.inl rfl)

end Turns

/-! ### Runs -/

section Runs

variable (codec : Codec) (dir : String)

/-- The state of the disk and the threads that `hs` has led to. -/
structure Sound (s : FileJournal) (hs : List Happening) : Prop where
  settled : s.disk.Settled IsEntry
  mirrors : Mirrors codec s.disk (hs.foldl Ledger.happen .new)
  ready : ∀ (i : ℕ) (t : Thread), s.threads[i]? = some t → Ready codec s.disk s.pid t.call t.frame
  numbered : ∀ (i : ℕ) (t : Thread) (n : ℕ), s.threads[i]? = some t →
    t.frame.number = some n → n < s.seq
  apart : ∀ (i j : ℕ) (t t' : Thread) (n : ℕ), s.threads[i]? = some t → s.threads[j]? = some t' →
    t.frame.number = some n → t'.frame.number = some n → i = j
  accounts : ∀ (i : ℕ) (t : Thread), s.threads[i]? = some t → Accounts t (effectsOf i hs)
  later : ∀ i : ℕ, s.threads.length ≤ i → effectsOf i hs = []

variable {codec dir}

theorem effectsOf_append (i : ℕ) (hs hs' : List Happening) :
    effectsOf i (hs ++ hs') = effectsOf i hs ++ effectsOf i hs' :=
  List.filterMap_append

/-- A turn of one thread is none of another's doing. -/
theorem effectsOf_mark_ne {i thread : ℕ} (other : i ≠ thread) (call : Call) (frame : Frame)
    (reply : Reply) : effectsOf i (mark thread call frame reply) = [] := by
  unfold mark effectsOf
  split <;> simp [Ne.symm other]

variable (dir) in
/-- **What a turn does to the ledger is what the thread will answer.** -/
theorem turn_accounts {disk : Disk String UInt8} {pid : ℕ} (s : FileJournal) {call : Call}
    {frame : Frame} {effects : List Call} (ready : Ready codec disk pid call frame)
    (accounts : Accounts ⟨call, frame⟩ effects) (thread : ℕ) (reply : Reply) :
    Accounts ⟨call, (turn dir s call frame reply).2⟩
      (effects ++ effectsOf thread (mark thread call frame reply)) := by
  have performed : effectsOf thread [.op thread call] = [call] := by simp [effectsOf]
  -- what neither links nor unlinks the entry adds nothing to the account
  have quiet : ∀ {frame' hs}, Accounts ⟨call, frame'⟩ effects → effectsOf thread hs = [] →
      Accounts ⟨call, frame'⟩ (effects ++ effectsOf thread hs) := by
    intro frame' hs same none
    rwa [none, List.append_nil]
  have writes : ∀ {n file left}, effects = [] → Accounts ⟨call, writeAll n file left⟩ effects := by
    intro n file left done
    unfold writeAll
    split_ifs
    · exact done
    · exact done
  cases frame with
  | creating n bytes =>
    obtain ⟨intent, rfl⟩ := ready.2.records
    cases reply with
    | err why => exact quiet accounts rfl
    | ok written => exact quiet (writes accounts) rfl
  | writing n file left =>
    cases reply with
    | err why => exact quiet accounts rfl
    | ok written =>
      refine quiet ?_ rfl
      show Accounts ⟨call, afterWrite call.jobId n file left written⟩ effects
      unfold afterWrite
      split_ifs
      · exact accounts
      · exact writes accounts
  | syncing n file =>
    cases reply with
    | err why => exact quiet accounts rfl
    | ok written => exact quiet accounts rfl
  | publishing n =>
    obtain ⟨filled, file, bound, safe, intent, rfl, whole⟩ := ready
    cases reply with
    | err why => exact quiet accounts rfl
    | ok written =>
      have empty : effects = [] := accounts
      show effects ++ effectsOf thread [.op thread (.record intent)] = [.record intent]
      rw [performed, empty, List.nil_append]
  | removing n error =>
    obtain ⟨intent, rfl⟩ := ready
    cases reply with
    | err why => exact quiet accounts rfl
    | ok written => exact quiet accounts rfl
  | unlinking =>
    obtain ⟨filled, jobId, rfl⟩ := ready
    cases reply with
    | err why => exact quiet (.inl accounts) rfl
    | ok written =>
      have empty : effects = [] := accounts
      right
      show effects ++ effectsOf thread [.op thread (.forget jobId)] = [.forget jobId]
      rw [performed, empty, List.nil_append]
  | _ => exact quiet accounts rfl

theorem ready_kill (disk : Disk String UInt8) (pid : ℕ) (t : Thread) :
    Ready codec disk pid t.kill.call t.kill.frame := by
  unfold Thread.kill
  split
  · next result done => rw [done]; trivial
  · trivial

theorem number_kill (t : Thread) : t.kill.frame.number = none := by
  unfold Thread.kill
  split
  · next result done => rw [done]; rfl
  · rfl

/-- A call has done all or nothing. -/
theorem Accounts.halves {t : Thread} {effects : List Call} (accounts : Accounts t effects) :
    effects = [] ∨ effects = [t.call] := by
  obtain ⟨call, frame⟩ := t
  have halves : ∀ {result}, Answers call result effects → effects = [] ∨ effects = [call] := by
    intro result answers
    unfold Answers at answers
    split at answers
    · exact .inr answers
    · exact .inl answers
    · exact answers
    · exact answers.elim
  cases frame with
  | returning result => exact halves accounts
  | done result => exact halves accounts
  | cut => exact accounts
  | _ => exact .inl accounts

theorem accounts_kill {t : Thread} {effects : List Call} (accounts : Accounts t effects) :
    Accounts t.kill effects := by
  unfold Thread.kill
  split
  · exact accounts
  · exact accounts.halves

theorem no_thread (pid : ℕ) {i : ℕ} {t : Thread} : (new pid).threads[i]? ≠ some t := by
  intro found
  change ([] : List Thread)[i]? = some t at found
  rw [List.getElem?_nil] at found
  cases found

theorem sound_new (pid : ℕ) : Sound codec (new pid) [] where
  settled := Disk.settled_empty
  mirrors := by
    refine .cons ⟨?_, ?_, ?_⟩ .nil
    · intro name file entry bound
      cases bound
    · intro jobId filled
      rfl
    · intro jobId intent found
      cases found
  ready := fun _ _ found => absurd found (no_thread pid)
  numbered := fun _ _ _ found => absurd found (no_thread pid)
  apart := fun _ _ _ _ _ found => absurd found (no_thread pid)
  accounts := fun _ _ found => absurd found (no_thread pid)
  later := fun _ _ => rfl

/-- A thread of a list with one more at its end. -/
theorem getElem?_push {threads : List Thread} {t t' : Thread} {i : ℕ}
    (found : (threads ++ [t])[i]? = some t') :
    threads[i]? = some t' ∨ i = threads.length ∧ t' = t := by
  by_cases inside : i < threads.length
  · rw [List.getElem?_append_left inside] at found
    exact .inl found
  · rw [List.getElem?_append_right (by omega)] at found
    have zero : i - threads.length = 0 := by
      by_contra more
      obtain ⟨m, m_eq⟩ := Nat.exists_eq_succ_of_ne_zero more
      rw [m_eq] at found
      cases found
    rw [zero] at found
    exact .inr ⟨by omega, (Option.some.inj found).symm⟩

theorem begin_ready (disk : Disk String UInt8) (pid : ℕ) (call : Call) :
    Ready codec disk pid call (begin codec call).frame := by
  have usable : ∀ {path}, entryPath call.jobId = .ok path → call.jobId ≠ "" := by
    intro path passes empty
    rw [empty] at passes
    cases passes
  unfold begin
  cases path : entryPath call.jobId with
  | error e => cases call <;> trivial
  | ok name =>
    cases call with
    | record intent => exact ⟨usable path, intent, rfl, rfl⟩
    | forget jobId => exact ⟨usable path, jobId, rfl⟩

theorem begin_number (call : Call) : (begin codec call).frame.number = none := by
  unfold begin
  cases entryPath call.jobId <;> cases call <;> rfl

theorem begin_accounts (call : Call) : Accounts (begin codec call) [] := by
  unfold begin
  cases entryPath call.jobId with
  | ok name => cases call <;> rfl
  | error e =>
    cases call with
    | record intent => rfl
    | forget jobId => exact .inl rfl

theorem sound_call {s : FileJournal} {hs : List Happening} (sound : Sound codec s hs)
    (call : Call) : Sound codec { s with threads := s.threads ++ [begin codec call] } hs := by
  refine ⟨sound.settled, sound.mirrors, ?_, ?_, ?_, ?_, ?_⟩
  · intro i t found
    obtain here | ⟨-, rfl⟩ := getElem?_push found
    · exact sound.ready i t here
    · exact begin_ready _ _ call
  · intro i t n found number
    obtain here | ⟨-, rfl⟩ := getElem?_push found
    · exact sound.numbered i t n here number
    · rw [begin_number] at number
      cases number
  · intro i j t t' n found found' number number'
    obtain here | ⟨-, rfl⟩ := getElem?_push found
    · obtain here' | ⟨-, rfl⟩ := getElem?_push found'
      · exact sound.apart i j t t' n here here' number number'
      · rw [begin_number] at number'
        cases number'
    · rw [begin_number] at number
      cases number
  · intro i t found
    obtain here | ⟨rfl, rfl⟩ := getElem?_push found
    · exact sound.accounts i t here
    · rw [sound.later _ (Nat.le_refl _)]
      exact begin_accounts call
  · intro i beyond
    rw [List.length_append, List.length_singleton] at beyond
    exact sound.later i (by omega)

theorem sound_turn {s : FileJournal} {hs : List Happening} (sound : Sound codec s hs)
    {thread : ℕ} {t : Thread} (here : s.threads[thread]? = some t) (reply : Reply) :
    Sound codec
      { (turn dir s t.call t.frame reply).1 with
        threads := s.threads.set thread ⟨t.call, (turn dir s t.call t.frame reply).2⟩ }
      (hs ++ mark thread t.call t.frame reply) := by
  have turned := turn_turned dir sound.settled sound.mirrors (sound.ready thread t here)
    thread reply
  have inside : thread < s.threads.length := (List.getElem?_eq_some_iff.mp here).1
  generalize outcome : turn dir s t.call t.frame reply = r at turned ⊢
  obtain ⟨s', frame'⟩ := r
  -- the list of threads differs in the one that had its turn
  have others : ∀ {i : ℕ} {t' : Thread},
      (s.threads.set thread ⟨t.call, frame'⟩)[i]? = some t' →
      (i = thread ∧ t' = ⟨t.call, frame'⟩) ∨ (i ≠ thread ∧ s.threads[i]? = some t') := by
    intro i t' found
    rw [List.getElem?_set] at found
    by_cases same : thread = i
    · rw [if_pos same, if_pos inside] at found
      exact .inl ⟨same.symm, (Option.some.inj found).symm⟩
    · rw [if_neg same] at found
      exact .inr ⟨Ne.symm same, found⟩
  -- a number in hand is one the thread had before, or the counter's
  have numbers : ∀ {n}, frame'.number = some n →
      t.frame.number = some n ∨ n = s.seq ∧ s'.seq = s.seq + 1 := by
    intro n number
    obtain none | old | ⟨new, seq⟩ := turned.number
    · rw [none] at number
      cases number
    · exact .inl (old ▸ number)
    · exact .inr ⟨Option.some.inj (number.symm.trans new), seq⟩
  refine ⟨turned.settled, ?_, ?_, ?_, ?_, ?_, ?_⟩
  · rw [List.foldl_append]
    exact turned.mirrors
  · intro i t' found
    obtain ⟨rfl, rfl⟩ | ⟨other, found'⟩ := others found
    · exact turned.ready
    · have ready := sound.ready i t' found'
      show Ready codec s'.disk s'.pid t'.call t'.frame
      rw [turned.pid]
      refine ready_untouched ready fun n number => ?_
      refine turned.spares _ (tmpName_hidden _ _ _) fun n' number' same => ?_
      have equal := tmpName_number same
      exact other (sound.apart i thread t' t n found' here number (equal ▸ number'))
  · intro i t' n found number
    obtain ⟨rfl, rfl⟩ | ⟨other, found'⟩ := others found
    · obtain old | ⟨rfl, seq⟩ := numbers number
      · exact Nat.lt_of_lt_of_le (sound.numbered i t n here old) turned.seq
      · show s.seq < s'.seq
        omega
    · exact Nat.lt_of_lt_of_le (sound.numbered i t' n found' number) turned.seq
  · intro i j t₁ t₂ n found₁ found₂ number₁ number₂
    obtain ⟨rfl, rfl⟩ | ⟨other₁, found₁'⟩ := others found₁
    · obtain ⟨rfl, rfl⟩ | ⟨other₂, found₂'⟩ := others found₂
      · rfl
      · obtain old | ⟨rfl, -⟩ := numbers number₁
        · exact sound.apart i j t t₂ n here found₂' old number₂
        · exact absurd (sound.numbered j t₂ _ found₂' number₂) (by omega)
    · obtain ⟨rfl, rfl⟩ | ⟨other₂, found₂'⟩ := others found₂
      · obtain old | ⟨rfl, -⟩ := numbers number₂
        · exact sound.apart i j t₁ t n found₁' here number₁ old
        · exact absurd (sound.numbered i t₁ _ found₁' number₁) (by omega)
      · exact sound.apart i j t₁ t₂ n found₁' found₂' number₁ number₂
  · intro i t' found
    rw [effectsOf_append]
    obtain ⟨rfl, rfl⟩ | ⟨other, found'⟩ := others found
    · have accounts := turn_accounts dir s (sound.ready i t here)
        (sound.accounts i t here) i reply
      rw [outcome] at accounts
      exact accounts
    · rw [effectsOf_mark_ne other, List.append_nil]
      exact sound.accounts i t' found'
  · intro i beyond
    have beyond' : s.threads.length ≤ i := by
      rwa [List.length_set] at beyond
    rw [effectsOf_append, sound.later i beyond', effectsOf_mark_ne (by omega)]
    rfl

/-- Every call is cut off, whatever becomes of the disk. -/
theorem sound_restart {s : FileJournal} {hs hs' : List Happening} (sound : Sound codec s hs)
    {disk : Disk String UInt8} (pid : ℕ) (settled : disk.Settled IsEntry)
    (mirrors : Mirrors codec disk ((hs ++ hs').foldl Ledger.happen .new))
    (none : ∀ i, effectsOf i hs' = []) :
    Sound codec ⟨disk, 0, pid, s.threads.map Thread.kill⟩ (hs ++ hs') := by
  have killed : ∀ {i : ℕ} {t : Thread}, (s.threads.map Thread.kill)[i]? = some t →
      ∃ t', s.threads[i]? = some t' ∧ t = t'.kill := by
    intro i t found
    rw [List.getElem?_map, Option.map_eq_some_iff] at found
    obtain ⟨t', here, rfl⟩ := found
    exact ⟨t', here, rfl⟩
  refine ⟨settled, mirrors, ?_, ?_, ?_, ?_, ?_⟩
  · intro i t found
    obtain ⟨t', -, rfl⟩ := killed found
    exact ready_kill _ _ t'
  · intro i t n found number
    obtain ⟨t', -, rfl⟩ := killed found
    rw [number_kill] at number
    cases number
  · intro i j t₁ t₂ n found₁ _ number₁ _
    obtain ⟨t', -, rfl⟩ := killed found₁
    rw [number_kill] at number₁
    cases number₁
  · intro i t found
    obtain ⟨t', here, rfl⟩ := killed found
    rw [effectsOf_append, none, List.append_nil]
    exact accounts_kill (sound.accounts i t' here)
  · intro i beyond
    rw [effectsOf_append, none, List.append_nil]
    exact sound.later i (by simpa using beyond)

variable (dir) in
theorem sound_step {s : FileJournal} {hs : List Happening} (sound : Sound codec s hs) (l : Label) :
    Sound codec (step codec dir s l) (hs ++ marks s l) := by
  cases l with
  | call call =>
    show Sound codec (step codec dir s (.call call)) (hs ++ [])
    rw [List.append_nil]
    unfold step
    dsimp only
    split_ifs
    · exact sound
    · exact sound_call sound call
  | turn thread reply =>
    unfold step marks
    dsimp only
    cases here : s.threads[thread]? with
    | none =>
      dsimp only
      rw [List.append_nil]
      exact sound
    | some t => exact sound_turn sound here reply
  | killed pid =>
    refine sound_restart sound pid sound.settled ?_ fun _ => rfl
    show Mirrors codec s.disk ((hs ++ []).foldl Ledger.happen .new)
    rw [List.append_nil]
    exact sound.mirrors
  | powerLost back garbage pid =>
    refine sound_restart sound pid (sound.settled.lose back garbage) ?_ fun _ => rfl
    rw [List.foldl_append]
    exact mirrors_lose sound.settled sound.mirrors back garbage

variable (dir) in
theorem sound_run {s : FileJournal} {hs : List Happening} (sound : Sound codec s hs)
    (labels : List Label) :
    Sound codec (run (step codec dir) s labels) (hs ++ history codec dir s labels) := by
  induction labels generalizing s hs with
  | nil =>
    show Sound codec s (hs ++ [])
    rw [List.append_nil]
    exact sound
  | cons l labels ih =>
    have rest := ih (sound_step dir sound l)
    rw [List.append_assoc] at rest
    exact rest

/-- What a start reads when nothing is lost on the way: the intents of the journal, each once in a
file of its own. -/
theorem mem_outstanding_of_holds {s : FileJournal} {journal : Journal}
    (holds : Holds codec s.disk s.disk.names journal) (unreadable : String → Bool)
    (intent : JobIntent) :
    intent ∈ s.disk.names.entries.filterMap (fun e =>
        if IsEntry e.1 ∧ unreadable e.1 = false then (codec.fromSlice (s.disk.files e.2)).toOption
        else none) ↔
      journal.get intent.jobId = some intent ∧ unreadable (entryName intent.jobId) = false := by
  rw [List.mem_filterMap]
  constructor
  · rintro ⟨⟨name, file⟩, member, read⟩
    have bound : s.disk.names.lookup name = some file := Table.mem_entries.mp member
    split_ifs at read with readable
    obtain ⟨jobId, filled, rfl⟩ := holds.named name file readable.1 bound
    have whole := holds.reads jobId filled
    unfold Disk.readIn at whole
    rw [bound, Option.map_some] at whole
    obtain ⟨intent', found, bytes⟩ := Option.map_eq_some_iff.mp whole.symm
    dsimp only at read
    rw [← bytes, codec.fromSlice_toVec] at read
    obtain rfl := Option.some.inj read
    have keyed := journal.keyed jobId intent' found
    exact ⟨keyed.symm ▸ found, keyed.symm ▸ readable.2⟩
  · rintro ⟨found, readable⟩
    have filled := holds.filled _ _ found
    have whole := holds.reads _ filled
    rw [found, Option.map_some] at whole
    obtain ⟨file, bound, bytes⟩ := Option.map_eq_some_iff.mp whole
    refine ⟨⟨entryName intent.jobId, file⟩, Table.mem_entries.mpr bound, ?_⟩
    rw [if_pos ⟨entryName_isEntry filled, readable⟩]
    dsimp only
    rw [bytes, codec.fromSlice_toVec]
    rfl

/-! ### What was answered -/

/-- A thread that did something to the ledger was called for it. -/
theorem Sound.called {s : FileJournal} {hs : List Happening} (sound : Sound codec s hs) {i : ℕ}
    {call : Call} (member : .op i call ∈ hs) : ∃ t ∈ s.threads, t.call = call := by
  have did : call ∈ effectsOf i hs := List.mem_filterMap.mpr ⟨_, member, if_pos rfl⟩
  cases here : s.threads[i]? with
  | none =>
    rw [sound.later i (List.getElem?_eq_none_iff.mp here)] at did
    cases did
  | some t =>
    obtain nothing | all := (sound.accounts i t here).halves
    · rw [nothing] at did
      cases did
    · rw [all] at did
      exact ⟨t, List.mem_of_getElem? here, (List.mem_singleton.mp did).symm⟩

/-- The power stays on. -/
def Label.Powered (l : Label) : Prop :=
  ∀ back garbage pid, l ≠ .powerLost back garbage pid

theorem marks_powered {l : Label} (powered : l.Powered) (s : FileJournal) (back : ℕ) :
    .lost back ∉ marks s l := by
  intro member
  cases l with
  | turn thread reply =>
    unfold marks at member
    dsimp only at member
    split at member
    · unfold mark at member
      split at member <;> simp at member
    · cases member
  | powerLost back' garbage pid => exact powered _ _ _ rfl
  | _ => cases member

variable (codec dir) in
theorem history_powered (labels : List { l : Label // l.Powered }) (s : FileJournal) (back : ℕ) :
    .lost back ∉ history codec dir s (labels.map Subtype.val) := by
  induction labels generalizing s with
  | nil => exact List.not_mem_nil
  | cons l labels ih =>
    intro member
    obtain now | later := List.mem_append.mp member
    · exact marks_powered l.2 s back now
    · exact ih _ later

/-- A debt that nobody forgets stays. -/
theorem owed_fold (jobId : JobId) (P : JobIntent → Prop) {hs : List Happening}
    (kept : ∀ back, .lost back ∉ hs) (unpaid : ∀ i, .op i (.forget jobId) ∉ hs)
    (made : ∀ i intent, .op i (.record intent) ∈ hs → P intent) {l : Ledger}
    (owed : ∃ intent, l.now.get jobId = some intent ∧ P intent) :
    ∃ intent, (hs.foldl Ledger.happen l).now.get jobId = some intent ∧ P intent := by
  induction hs generalizing l with
  | nil => exact owed
  | cons h hs ih =>
    refine ih (fun b m => kept b (.tail _ m)) (fun i m => unpaid i (.tail _ m))
      (fun i x m => made i x (.tail _ m)) ?_
    cases h with
    | nothing => exact owed
    | lost back => exact absurd List.mem_cons_self (kept back)
    | op i call =>
      cases call with
      | record intent =>
        show ∃ x, (l.now.record intent).get jobId = some x ∧ P x
        rw [Journal.get_record]
        by_cases same : jobId = intent.jobId
        · rw [if_pos same]
          exact ⟨intent, rfl, made i intent List.mem_cons_self⟩
        · rw [if_neg same]
          exact owed
      | forget other =>
        show ∃ x, (l.now.forget other).get jobId = some x ∧ P x
        rw [Journal.get_forget, if_neg]
        · exact owed
        · rintro rfl
          exact unpaid i List.mem_cons_self

end Runs

/-- What a `record` was answered for, and nobody asked to forget, the next start reads: that intent,
or one recorded for the job since. -/
def Durable (codec : Codec) (dir : String) (s : FileJournal) : Prop :=
  ∀ t ∈ s.threads, ∀ intent, t.call = .record intent → t.frame = .done (.ok ()) →
    (∀ t' ∈ s.threads, t'.call ≠ .forget intent.jobId) →
    ∀ unreadable, unreadable (entryName intent.jobId) = false →
      ∃ intents owed, s.outstanding codec dir (.ok ()) unreadable = .ok intents ∧
        owed ∈ intents ∧ owed.jobId = intent.jobId ∧ ∃ t' ∈ s.threads, t'.call = .record owed

end FileJournal

end HullCi.Server
