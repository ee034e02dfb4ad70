import Scrypta.SwiftQuorum

/-! Expiry of locks. The cleanup erases every input that an expired request lists. It
releases the entries of that lock and no others as long as each locked input has one
owner: a lock, its request, and no other request that lists the input. -/

namespace Scrypta.SwiftTX

open Runs

variable {verifyMessage : Bytes → Bytes → String → Bool}

/-- The input `o` locked for `t` is listed by the request of `t` and by no other. -/
structure OwnedBy (s : State) (o : COutPoint) (t : Uint256) : Prop where
  lock : ∃ l, s.mapTxLocks.find t = some l
  request : ∃ tx, s.mapTxLockReq.find t = some tx ∧ o ∈ tx.prevouts
  only : ∀ t' tx, t' ≠ t → s.mapTxLockReq.find t' = some tx → o ∉ tx.prevouts

def InputsOwned (s : State) : Prop :=
  ∀ o t, s.mapLockedInputs.find o = some t → OwnedBy s o t

/-- The condition on one step: a refused request is backed by its votes, an input that is
newly locked is listed by no other request, and the wallet requests no input that is locked
for another transaction. -/
def LocksApart (verifyMessage : Bytes → Bytes → String → Bool) (s : State)
    (e : Env × Event) : Prop :=
  (∀ o t, NewlyLocked verifyMessage s e o t → ∀ t' tx, t' ≠ t →
    s.mapTxLockReq.find t' = some tx → o ∉ tx.prevouts) ∧
  match e.2 with
  | .ix tx => RequestBacked e.1 s tx
  | .wallet tx => ∀ o ∈ tx.prevouts, ∀ t, s.mapLockedInputs.find o = some t → t = tx.getHash
  | .txlvote _ => True
  | .clean => True

/-- A request `tx` that lists no input locked for others leaves the owners as they are. -/
theorem OwnedBy.insert {s s' : State} {o : COutPoint} {t : Uint256} {tx : CTransaction}
    (h : OwnedBy s o t) (hreq : s'.mapTxLockReq = s.mapTxLockReq.insert tx.getHash tx)
    (hlock : ∀ l, s.mapTxLocks.find t = some l → ∃ l', s'.mapTxLocks.find t = some l')
    (htx : o ∈ tx.prevouts → t = tx.getHash) : OwnedBy s' o t := by
  obtain ⟨⟨l, hl⟩, ⟨r, hr, hor⟩, honly⟩ := h
  refine ⟨hlock l hl, ⟨r, ?_, hor⟩, ?_⟩
  · rw [hreq]
    exact Dict.find_insert_of_some _ hr
  · intro t' r' hne hr'
    rw [hreq, Dict.find_insert] at hr'
    split at hr'
    · next ht' =>
      cases hold : s.mapTxLockReq.find tx.getHash with
      | none =>
        rw [hold] at hr'
        obtain rfl := Option.some.inj hr'
        exact fun ho => hne (ht'.trans (htx ho).symm)
      | some r₀ =>
        rw [hold] at hr'
        obtain rfl := Option.some.inj hr'
        exact honly t' r₀ hne (ht' ▸ hold)
    · exact honly t' r' hne hr'

theorem acceptToMemoryPool_conflict {env : Env} {s : State} {tx : CTransaction}
    (h : acceptToMemoryPool env s tx = true) : conflictingLock s tx = none := by
  simp only [acceptToMemoryPool, Bool.and_eq_true] at h
  exact Option.isNone_iff_eq_none.mp h.1

theorem inputsOwned_processRequest {env : Env} {s : State} {tx : CTransaction}
    (h : InputsOwned s) (hh : env.handles = true) (hc : LocksApart verifyMessage s (env, .ix tx)) :
    InputsOwned (processRequest verifyMessage env s tx) := by
  rcases processRequest_cases verifyMessage env s tx with
    heq | ⟨_, ha, V, _, heq⟩ | ⟨hw, ha, heq⟩
  · rwa [heq]
  · rw [heq]
    intro o t ho
    exact (h o t ho).insert rfl (fun l hl => createNewLock_keeps env s tx hl)
      fun hmem => conflictingLock_none (acceptToMemoryPool_conflict ha) hmem ho
  · have hfresh := ixWellFormed_fresh hw
    obtain ⟨R, L, hL, hR, hreject⟩ := rejectRequest_eq env
      { s with mapTxLocks := (createNewLock env s tx).1.mapTxLocks } tx
    rw [heq, hreject]
    intro o t ho
    have hlock : ∀ l, s.mapTxLocks.find t = some l → ∃ l', L.find t = some l' := by
      intro l hl
      obtain ⟨l', hl'⟩ := createNewLock_keeps env s tx hl
      exact hL.isSome hl'
    rcases find_insertAll_eq_some ho with hold | ⟨hnone, hmem, rfl⟩
    · rcases hR with ⟨_, hconf, rfl⟩ | ⟨_, rfl⟩
      · exact (h o t hold).insert rfl hlock fun hmem => conflictingLock_none hconf hmem hold
      · obtain ⟨⟨l, hl⟩, hr, honly⟩ := h o t hold
        exact ⟨hlock l hl, hr, honly⟩
    · rcases hc.2 ⟨hh, hw, ha⟩ with hall | ⟨hq, hconf⟩
      · exact absurd hnone (hall o hmem)
      · obtain ⟨l, hl, _⟩ := hasQuorum_iff.mp hq
        rcases hR with ⟨_, _, rfl⟩ | ⟨hno, _⟩
        · refine ⟨hL.isSome hl, ⟨tx, ?_, hmem⟩, ?_⟩
          · rw [Dict.find_insert_of_none _ hfresh, if_pos rfl]
          · intro t' r hne hr
            rw [Dict.find_insert_ne _ hne] at hr
            exact hc.1 o _ ⟨hnone, ⟨hh, hw, ha⟩, rfl, hmem⟩ t' r hne hr
        · exact absurd ⟨hq, hconf⟩ hno

theorem inputsOwned_processVote {env : Env} {s : State} {ctx : CConsensusVote}
    (h : InputsOwned s) (hh : env.handles = true)
    (hc : LocksApart verifyMessage s (env, .txlvote ctx)) :
    InputsOwned (processVote verifyMessage env s ctx) := by
  cases hk : s.mapTxLockVote.count ctx.getHash with
  | true => rwa [processVote_of_known hk]
  | false =>
    by_cases hvalid : VoteValid verifyMessage env ctx
    · obtain ⟨U, heq⟩ := processVote_of_valid hk hvalid
      obtain ⟨R, L, I, n, hL, hkeep, hback, hI, hsettle⟩ :=
        settleLock_eq env (countVote env s ctx) ctx.txHash
      rw [heq, hsettle]
      have hreq : ∀ t r o, R.find t = some r → o ∈ r.prevouts →
          s.mapTxLockReq.find t = some r := by
        intro t r o hr ho
        rcases hback t r hr with hr | rfl
        · exact hr
        · cases ho
      have hold : ∀ o t, s.mapLockedInputs.find o = some t →
          OwnedBy { countVote env s ctx with
            mapTxLockReq := R, mapTxLocks := L, mapLockedInputs := I, nCompleteTXLocks := n,
            mapUnknownVotes := U } o t := by
        intro o t ho
        obtain ⟨⟨l, hl⟩, ⟨r, hr, hor⟩, honly⟩ := h o t ho
        refine ⟨?_, ⟨r, hkeep t r hr, hor⟩, fun t' r' hne hr' ho' =>
          honly t' r' hne (hreq t' r' o hr' ho') ho'⟩
        have hcount : ∃ l', (countVote env s ctx).mapTxLocks.find t = some l' := by
          rw [countVote, compileVote_find]
          split
          · exact ⟨_, rfl⟩
          · exact ⟨l, hl⟩
        obtain ⟨l', hl'⟩ := hcount
        exact hL.isSome hl'
      intro o t ho
      rcases hI with rfl | ⟨hq, r, hr, hconf, rfl⟩
      · exact hold o t ho
      · rcases find_insertAll_eq_some ho with ho | ⟨hnone, hmem, rfl⟩
        · exact hold o t ho
        · obtain ⟨l, hl, _⟩ := hasQuorum_iff.mp hq
          have hr₀ := hreq _ r o hr hmem
          refine ⟨hL.isSome hl, ⟨r, hr, hmem⟩, fun t' r' hne hr' ho' => ?_⟩
          exact hc.1 o _ ⟨hnone, ⟨hh, hk, hvalid, hq⟩, rfl, r, hr₀, hconf, hmem⟩ t' r' hne
            (hreq t' r' o hr' ho') ho'
    · rw [processVote_of_not_valid hk hvalid]
      intro o t ho
      obtain ⟨hl, hr, honly⟩ := h o t ho
      exact ⟨hl, hr, honly⟩

theorem inputsOwned_wallet {env : Env} {s : State} {tx : CTransaction} (h : InputsOwned s)
    (hc : LocksApart verifyMessage s (env, .wallet tx)) :
    InputsOwned (relayWalletTransaction env s tx) := by
  rcases relayWalletTransaction_cases env s tx with heq | heq
  · rwa [heq]
  · rw [heq]
    intro o t ho
    exact (h o t ho).insert rfl (fun l hl => createNewLock_keeps env s tx hl)
      fun hmem => hc.2 o hmem t ho

/-- The cleanup keeps the entries whose lock lives, and no others. -/
theorem cleaned_locked_iff {env : Env} {s s' : State} (h : InputsOwned s)
    (hc : Cleaned env s s.mapTxLocks.toList s') (o : COutPoint) (t : Uint256) :
    s'.mapLockedInputs.find o = some t ↔ s.mapLockedInputs.find o = some t ∧
      ¬∃ l, s.mapTxLocks.find t = some l ∧ Expired env l := by
  rw [hc.locked]
  constructor
  · rintro ⟨ho, hkept⟩
    refine ⟨ho, ?_⟩
    rintro ⟨l, hl, hexp⟩
    obtain ⟨r, hr, hor⟩ := (h o t ho).request
    exact hkept ⟨t, l, r, Dict.mem_toList.mpr hl, hexp, hr, hor⟩
  · rintro ⟨ho, hlive⟩
    refine ⟨ho, ?_⟩
    rintro ⟨t', l', r', hmem, hexp, hr', ho'⟩
    by_cases htt : t' = t
    · subst htt
      exact hlive ⟨l', Dict.mem_toList.mp hmem, hexp⟩
    · exact (h o t ho).only t' r' htt hr' ho'

theorem inputsOwned_cleaned {env : Env} {s s' : State} (h : InputsOwned s)
    (hc : Cleaned env s s.mapTxLocks.toList s') : InputsOwned s' := by
  intro o t ho
  obtain ⟨ho₀, hlive⟩ := (cleaned_locked_iff h hc o t).mp ho
  have hlive' : ¬∃ l', (t, l') ∈ s.mapTxLocks.toList ∧ Expired env l' := by
    rintro ⟨l', hmem, hexp⟩
    exact hlive ⟨l', Dict.mem_toList.mp hmem, hexp⟩
  obtain ⟨⟨l, hl⟩, ⟨r, hr, hor⟩, honly⟩ := h o t ho₀
  exact ⟨⟨l, (hc.locks t l).mpr ⟨hl, hlive'⟩⟩, ⟨r, (hc.req t r).mpr ⟨hr, hlive'⟩, hor⟩,
    fun t' r' hne hr' => honly t' r' hne ((hc.req t' r').mp hr').1⟩

theorem inputsOwned_step {s : State} {e : Env × Event} (h : InputsOwned s)
    (hkey : KeyedLocks s) (hc : LocksApart verifyMessage s e) :
    InputsOwned (step verifyMessage s e) := by
  obtain ⟨env, ev⟩ := e
  cases ev with
  | ix tx =>
    simp only [step]
    split
    · next hh => exact inputsOwned_processRequest h hh hc
    · exact h
  | txlvote ctx =>
    simp only [step]
    split
    · next hh => exact inputsOwned_processVote h hh hc
    · exact h
  | wallet tx => exact inputsOwned_wallet h hc
  | clean =>
    simp only [step]
    cases htip : env.tip with
    | none => rwa [cleanTransactionLocksList_of_no_tip htip]
    | some n =>
      have hsome : env.tip.isSome := by rw [htip]; rfl
      exact inputsOwned_cleaned h (cleanTransactionLocksList_cleaned hsome hkey)

theorem inputsOwned_run {es : List (Env × Event)}
    (h : Meets (step verifyMessage) (LocksApart verifyMessage) State.init es) :
    InputsOwned (run (step verifyMessage) State.init es) := by
  have hinit : VotesKept verifyMessage [] State.init ∧ InputsOwned State.init :=
    ⟨votesKept_init, fun o t ho => by simp [State.init] at ho⟩
  refine (run_history (I := fun past s => VotesKept verifyMessage past s ∧
    InputsOwned s) ?_ [] hinit h).2
  intro past s e hs hc
  exact ⟨votesKept_step past s e hs.1, inputsOwned_step hs.2 hs.1.keyed hc⟩

section Runs

def laterNode (time : ℤ) : Env := { sampleNode with sporks := ⟨.empty, time⟩ }

end Runs

end Scrypta.SwiftTX
