/-
**Break glass, and the credentials that are held.**

* `OnlyAttested`, `RedeemedOnce`, `GlassBroken` — what is said of the runs, and their proofs.
-/

import HullCi.Proxy.Visits

namespace HullCi.Proxy

open HullCi.Base HullCi.Base.Program
open HullCi.Secrets

section Runs

variable {set : Setting} {identity : ProxyIdentity} {enrolled : Family → NodeRegistry}

/-- The thread serves the request, and has come to its end. -/
def Visitors.Ended (p : Visitors) (i : ℕ) (errand : Errand) : Prop :=
  ∃ r, p.outcome i = some (errand, r)

/-- The contract and what the threads return, since some ledger. -/
abbrev Visitors.GoodSince (set : Setting) (identity : ProxyIdentity) (s₀ : Ledger) (first : ℕ)
    (p : Visitors) : Prop :=
  (deskSince set s₀).Good (Brings set identity s₀ first) p

theorem sound_opening : Sound set.cipher Errand.errands
    (Visitors.start enrolled).shared.books where
  held family id record found := by cases found
  unique family g d g' d' minted := by
    obtain ⟨_, _, member⟩ := minted
    cases member
  mints caller family now record member := by cases member
  claims caller family id digest principal now grant member := by cases member
  once caller family id digest principal now grant caller' digest' principal' now' grant' member := by
    cases member
  rows tenant name sealed found :=
    (sound_new : Sound set.cipher Errand.errands (Books.new : Books Errand)).rows tenant name sealed
      found

theorem inOrder_opening : InOrder set (Visitors.start enrolled).shared where
  books := sound_opening
  held id slot token values here := by cases here

theorem visitors_run (ideal : set.cipher.Ideal) {s₀ : Ledger} {first : ℕ} {p : Visitors}
    (good : p.GoodSince set identity s₀ first) {turns : List (Turn Errand DeskInput)}
    (along : Along (Visitors.step set identity) (Visitors.Admits set) p turns) :
    (run (Visitors.step set identity) p turns).GoodSince set identity s₀ first :=
  Contract.good_run (K := deskSince set s₀)
    (fun _ i errand good _ => safe_errand ideal ⟨i, errand⟩ good.inv) good along

theorem visitors_after (ideal : set.cipher.Ideal) {turns : List (Turn Errand DeskInput)}
    (along : Along (Visitors.step set identity) (Visitors.Admits set) (.start enrolled) turns) :
    (Visitors.after set identity enrolled turns).GoodSince set identity
      (Visitors.start enrolled).shared 0 :=
  visitors_run ideal (Contract.good_idle ⟨inOrder_opening, (desk set).rely_refl _⟩) along

/-- From the end of a front on, older threads return as before, and younger ones what they return
of the time since. -/
theorem visitors_later (ideal : set.cipher.Ideal) {front back : List (Turn Errand DeskInput)}
    (along : Along (Visitors.step set identity) (Visitors.Admits set) (.start enrolled)
      (front ++ back)) :
    (Visitors.after set identity enrolled (front ++ back)).GoodSince set identity
      (Visitors.after set identity enrolled front).shared
      (Visitors.after set identity enrolled front).threads.length := by
  obtain ⟨before, rest⟩ := along_append.mp along
  have good := visitors_after ideal before
  have since : (Visitors.after set identity enrolled front).GoodSince set identity
      (Visitors.after set identity enrolled front).shared
      (Visitors.after set identity enrolled front).threads.length := by
    refine ⟨⟨good.inv.1, (desk set).rely_refl _⟩, fun i request program here => ?_⟩
    have older : i < (Visitors.after set identity enrolled front).threads.length := by
      by_contra beyond
      rw [List.getElem?_eq_none (by omega)] at here
      cases here
    have safe := Contract.Safe.rebase (K := desk set) (good.safe i request program here) good.inv.2
    refine safe.weaken fun _ _ _ returns => ⟨returns.minted, returns.attested, fun young => ?_⟩
    exact absurd young (by simpa using older)
  have later := visitors_run ideal since rest
  rwa [← run_append] at later

theorem serving_of_entry {turns : List (Turn Errand DeskInput)} {e : Entry Errand DeskAnswer}
    (logged : e ∈ (Visitors.after set identity enrolled turns).shared.log) :
    (Visitors.after set identity enrolled turns).Serving e.caller :=
  caller_of_entry (performDesk set.cipher) (Errand.body set identity) (Desk.opening enrolled) turns
    e logged

theorem mem_books {s : Ledger} {caller : Caller Errand} {op : BrokerCall} {answer : BrokerAnswer op} :
    (⟨caller, op, answer⟩ : Entry Errand BrokerAnswer) ∈ s.books.log ↔
      (⟨caller, .broker op, answer⟩ : Entry Errand DeskAnswer) ∈ s.log := by
  constructor
  · intro member
    obtain ⟨⟨caller', op', answer'⟩, there, same⟩ := List.mem_filterMap.mp member
    cases op' with
    | broker op' =>
      cases same
      exact there
    | _ => cases same
  · exact fun member => List.mem_filterMap.mpr ⟨_, member, rfl⟩

/-! ### What is said of the runs -/

/-- Every value that was returned was put in the store for the tenant of the grant, which is that of
the request and of the slot it was looked up in, and the grant's capability was asserted again in
the same call. -/
def OnlyAttested (set : Setting) (identity : ProxyIdentity) (p : Visitors) : Prop :=
  ∀ i req value, p.outcome i = some (.credential req, .ok (.credential (.ok value))) →
    ∃ grant, Attested set identity p.shared ⟨i, .credential req⟩ req value grant

/-- The section redeems the capability. -/
def Redeems (capId : CapId) (e : Entry Errand BrokerAnswer) : Prop :=
  ∃ caller digest principal now grant,
    e = ⟨caller, .claim .proxy capId digest principal now, .ok grant⟩

/-- No capability is redeemed twice. -/
def RedeemedOnce (s : Ledger) : Prop :=
  s.books.log.Pairwise fun e e' => ∀ capId, Redeems capId e → ¬ Redeems capId e'

/-- A lookup that starts after break glass has returned returns no value on a grant it covers whose
mint had returned before. -/
def GlassBroken (set : Setting) (identity : ProxyIdentity) (enrolled : Family → NodeRegistry)
    (turns : List (Turn Errand DeskInput)) : Prop :=
  ∀ front mid back glass req,
    turns = (front ++ .start glass :: mid) ++ .start (.credential req) :: back →
    ∀ (m : ℕ) mint token grant, glass.covers grant →
      (Visitors.after set identity enrolled front).outcome m =
        some (mint, .ok (.minted token grant)) →
      (Visitors.after set identity enrolled (front ++ .start glass :: mid)).Ended
        (Visitors.after set identity enrolled front).threads.length glass →
      ∀ value, (Visitors.after set identity enrolled turns).outcome
          (Visitors.after set identity enrolled (front ++ .start glass :: mid)).threads.length =
        some (.credential req, .ok (.credential (.ok value))) →
      ¬ Attested set identity (Visitors.after set identity enrolled turns).shared
        ⟨(Visitors.after set identity enrolled (front ++ .start glass :: mid)).threads.length,
          .credential req⟩ req value grant

theorem onlyAttested_after (ideal : set.cipher.Ideal) {turns : List (Turn Errand DeskInput)}
    (along : Along (Visitors.step set identity) (Visitors.Admits set) (.start enrolled) turns) :
    OnlyAttested set identity (Visitors.after set identity enrolled turns) := by
  intro i req value ended
  have here := Pool.outcome_ok.mp ended
  obtain ⟨req', grant, same, attested⟩ :=
    ((visitors_after ideal along).returned here).attested value rfl
  cases same
  exact ⟨grant, attested⟩

theorem redeemedOnce_step {p : Visitors} (fine : InOrder set p.shared)
    (once : RedeemedOnce p.shared) (t : Turn Errand DeskInput) : RedeemedOnce (Visitors.step set identity p t).shared := by
  unfold Visitors.step
  obtain ⟨r, rfl, started⟩ | ⟨thread, input, r, op, next, rfl, _, turned⟩ | same :=
    Pool.step_cases (traced (performDesk set.cipher)) (Errand.body set identity) p t
  · rw [started]
    exact once
  · rw [turned]
    show RedeemedOnce (filed set p.shared ⟨thread, r⟩ input op)
    cases op with
    | broker op =>
      show List.Pairwise _ (_ :: p.shared.books.log)
      refine List.pairwise_cons.mpr ⟨fun e member capId => ?_, once⟩
      rintro ⟨caller, digest, principal, now, grant, same⟩ ⟨caller', digest', principal', now', grant',
        rfl⟩
      injection same with callers ops answers
      subst ops
      obtain ⟨record, found, _, _, _, unconsumed, _⟩ := CapRegistry.claim_ok
        (Prod.ext rfl (eq_of_heq answers) : (p.shared.state.broker.caps .proxy).claim
          Family.proxy.wrong capId digest principal now = (_, .ok grant))
      have consumed := (fine.books.claims _ _ _ _ _ _ _ member).2.2 record found
      rw [unconsumed] at consumed
      cases consumed
    | _ => exact once
  · rw [same]
    exact once

theorem redeemedOnce_after (ideal : set.cipher.Ideal) {turns : List (Turn Errand DeskInput)}
    (along : Along (Visitors.step set identity) (Visitors.Admits set) (.start enrolled) turns) :
    RedeemedOnce (Visitors.after set identity enrolled turns).shared := by
  have both : (fun p : Visitors => p.GoodSince set identity (Visitors.start enrolled).shared 0 ∧
      RedeemedOnce p.shared) (Visitors.after set identity enrolled turns) := by
    have start :
        (Visitors.start enrolled).GoodSince set identity (Visitors.start enrolled).shared 0 :=
      Contract.good_idle ⟨inOrder_opening, (desk set).rely_refl _⟩
    refine run_invariant_along (I := fun p : Visitors =>
        p.GoodSince set identity (Visitors.start enrolled).shared 0 ∧ RedeemedOnce p.shared)
      (fun p t fine admits => ?_) ⟨start, List.Pairwise.nil⟩ along
    have next := visitors_run ideal fine.1
      (show Along (Visitors.step set identity) (Visitors.Admits set) p [t] from ⟨admits, trivial⟩)
    exact ⟨next, redeemedOnce_step fine.1.inv.1 fine.2 t⟩
  exact both.2

theorem glassBroken_after (ideal : set.cipher.Ideal) {turns : List (Turn Errand DeskInput)}
    (along : Along (Visitors.step set identity) (Visitors.Admits set) (.start enrolled) turns) :
    GlassBroken set identity enrolled turns := by
  rintro front mid back glass req rfl m mint token grant covered minted ⟨r, ended⟩ value _ attested
  obtain ⟨before, since⟩ := along_append.mp along
  obtain ⟨start, _⟩ := along_append.mp before
  -- the mint had returned, so the grant was in the books when the glass was broken
  obtain ⟨digest, held⟩ :=
    ((visitors_after ideal start).returned (Pool.outcome_ok.mp minted)).minted token grant rfl
  have good := visitors_later ideal before
  have shut : Shut (Visitors.after set identity enrolled (front ++ .start glass :: mid)).shared
      grant := by
    cases r with
    | ok value =>
      exact (good.returned (Pool.outcome_ok.mp ended)).shut le_rfl grant digest held covered
    | error e =>
      exact (good.failed (Pool.outcome_error.mp ended)).shut le_rfl grant digest held covered
  have held' := held.mono good.inv.2.books.log
  -- whatever the lookup wrote down it wrote after that
  have always : ∀ front' back', (.start (.credential req) :: back : List (Turn Errand DeskInput)) =
      front' ++ back' → Later (Visitors.after set identity enrolled
          (front ++ .start glass :: mid)).shared (run (Visitors.step set identity)
        (Visitors.after set identity enrolled (front ++ .start glass :: mid)) front').shared := by
    intro front' back' same
    rw [same] at since
    have good' := visitors_later ideal
      (along_append.mpr ⟨before, (along_append.mp since).1⟩)
    rw [show Visitors.after set identity enrolled ((front ++ .start glass :: mid) ++ front') = _
      from run_append _ _ _ _] at good'
    exact good'.inv.2
  have written : ∀ (op : BrokerCall) (answer : BrokerAnswer op),
      (⟨⟨(Visitors.after set identity enrolled (front ++ .start glass :: mid)).threads.length,
        .credential req⟩, op, answer⟩ : Entry Errand BrokerAnswer) ∈
        (Visitors.after set identity enrolled
          ((front ++ .start glass :: mid) ++ .start (.credential req) :: back)).shared.books.log →
      ∃ (s : Ledger) (input : BrokerInput), Later (Visitors.after set identity enrolled
          (front ++ .start glass :: mid)).shared s ∧
        answer = (performBroker set.cipher s.state.broker input op).2 := by
    intro op answer member
    have logged := mem_books.mp member
    rw [show Visitors.after set identity enrolled _ = _ from run_append _ _ _ _] at logged
    obtain old | ⟨s, input, later, answers⟩ := entry_since _ always _ logged
    · obtain ⟨program, here⟩ := serving_of_entry old
      rw [List.getElem?_eq_none le_rfl] at here
      cases here
    · exact ⟨s, input.broker, later, answers⟩
  obtain ⟨tok, confirmed⟩ := attested.confirmed
  obtain dead | absent := shut
  · obtain ⟨digest, now, _, _, asserted, _⟩ := confirmed.token
    obtain ⟨s, input, later, answers⟩ := written _ _ asserted
    obtain ⟨record, found, _, _, unrevoked, _⟩ := CapRegistry.reassert_ok
      (show (s.state.broker.caps .proxy).reassert Family.proxy.wrong grant.capId digest
        grant.principal now = .ok grant from answers.symm)
    rw [later.books.dead .proxy _ held'.entered dead record found] at unrevoked
    cases unrevoked
  · obtain ⟨s, input, later, answers⟩ := written _ _ confirmed.resolved
    exact later.absent _ absent _ answers.symm

end Runs

end HullCi.Proxy
