import Scrypta.SwiftCleanup
import Scrypta.Toolkit.Runs

/-! Locked inputs and the votes behind them. Votes enter a lock only after they are
verified and at most once, in every run. Locked inputs have a quorum behind them in the
runs in which no refused request locks an input by itself. -/

namespace Scrypta.SwiftTX

open Runs

variable {verifyMessage : Bytes → Bytes → String → Bool}

/-- The votes in the locks were received, valid and distinct. -/
structure VotesKept (verifyMessage : Bytes → Bytes → String → Bool)
    (past : List (Env × Event)) (s : State) : Prop where
  keyed : KeyedLocks s
  vote : ∀ t l v, s.mapTxLocks.find t = some l → v ∈ l.vecConsensusVotes → v.txHash = t ∧
    (∃ w, s.mapTxLockVote.find v.getHash = some w) ∧
    ∃ env, (env, Event.txlvote v) ∈ past ∧ VoteValid verifyMessage env v
  distinct : ∀ t l, s.mapTxLocks.find t = some l →
    (l.vecConsensusVotes.map CConsensusVote.getHash).Nodup
  apart : ∀ t l t' l' v v', t ≠ t' → s.mapTxLocks.find t = some l →
    s.mapTxLocks.find t' = some l' → v ∈ l.vecConsensusVotes → v' ∈ l'.vecConsensusVotes →
    v.getHash ≠ v'.getHash

theorem votesKept_init : VotesKept verifyMessage [] State.init := by
  constructor
  · intro t l h
    simp [State.init] at h
  · intro t l v h
    simp [State.init] at h
  · intro t l h
    simp [State.init] at h
  · intro t l t' l' v v' _ h
    simp [State.init] at h

theorem VotesKept.mono {past past' : List (Env × Event)} {s s' : State}
    (h : VotesKept verifyMessage past s) (hlocks : SameVotes s.mapTxLocks s'.mapTxLocks)
    (hvotes : ∀ k v, s.mapTxLockVote.find k = some v → ∃ v', s'.mapTxLockVote.find k = some v')
    (hpast : ∀ e ∈ past, e ∈ past') : VotesKept verifyMessage past' s' := by
  have hback : ∀ {t l v}, s'.mapTxLocks.find t = some l → v ∈ l.vecConsensusVotes →
      ∃ l₀, s.mapTxLocks.find t = some l₀ ∧ v ∈ l₀.vecConsensusVotes := by
    intro t l v hl hv
    rcases hlocks t l hl with ⟨l₀, hl₀, _, heq⟩ | ⟨_, hnil⟩
    · exact ⟨l₀, hl₀, heq ▸ hv⟩
    · rw [hnil] at hv
      cases hv
  constructor
  · intro t l hl
    rcases hlocks t l hl with ⟨l₀, hl₀, hid, _⟩ | ⟨hid, _⟩
    · exact hid.trans (h.keyed t l₀ hl₀)
    · exact hid
  · intro t l v hl hv
    obtain ⟨l₀, hl₀, hv₀⟩ := hback hl hv
    obtain ⟨ht, ⟨w, hw⟩, env, hmem, hvalid⟩ := h.vote t l₀ v hl₀ hv₀
    exact ⟨ht, hvotes _ w hw, env, hpast _ hmem, hvalid⟩
  · intro t l hl
    rcases hlocks t l hl with ⟨l₀, hl₀, _, heq⟩ | ⟨_, hnil⟩
    · rw [heq]
      exact h.distinct t l₀ hl₀
    · simp [hnil]
  · intro t l t' l' v v' hne hl hl' hv hv'
    obtain ⟨l₀, hl₀, hv₀⟩ := hback hl hv
    obtain ⟨l₀', hl₀', hv₀'⟩ := hback hl' hv'
    exact h.apart t l₀ t' l₀' v v' hne hl₀ hl₀' hv₀ hv₀'

/-- A valid vote that was not seen before joins its lock. -/
theorem VotesKept.countVote {past : List (Env × Event)} {s : State} {env : Env}
    {ctx : CConsensusVote} (h : VotesKept verifyMessage past s)
    (hk : s.mapTxLockVote.count ctx.getHash = false) (hvalid : VoteValid verifyMessage env ctx) :
    VotesKept verifyMessage (past ++ [(env, .txlvote ctx)]) (countVote env s ctx) := by
  have hnone := Dict.count_eq_false.mp hk
  have hmap : (SwiftTX.countVote env s ctx).mapTxLockVote =
      s.mapTxLockVote.insert ctx.getHash ctx := rfl
  have hfind := compileVote_find env
    { s with mapTxLockVote := s.mapTxLockVote.insert ctx.getHash ctx } ctx
  have hcase : ∀ t l, (SwiftTX.countVote env s ctx).mapTxLocks.find t = some l →
      (∃ l₀, s.mapTxLocks.find t = some l₀ ∧ l.txHash = l₀.txHash ∧
        l.vecConsensusVotes = l₀.vecConsensusVotes ++ if t = ctx.txHash then [ctx] else []) ∨
      (t = ctx.txHash ∧ l.txHash = t ∧ l.vecConsensusVotes = [ctx]) := by
    intro t l hl
    rw [SwiftTX.countVote, hfind] at hl
    split at hl
    · next ht =>
      obtain rfl := Option.some.inj hl
      cases hs : s.mapTxLocks.find t with
      | none => exact Or.inr ⟨ht, ht.symm, rfl⟩
      | some l₀ => exact Or.inl ⟨l₀, rfl, rfl, by simp [ht, CTransactionLock.addSignature]⟩
    · next ht => exact Or.inl ⟨l, hl, rfl, by simp [ht]⟩
  have hmem : ∀ t l v, (SwiftTX.countVote env s ctx).mapTxLocks.find t = some l →
      v ∈ l.vecConsensusVotes → (∃ l₀, s.mapTxLocks.find t = some l₀ ∧
        v ∈ l₀.vecConsensusVotes) ∨ (v = ctx ∧ t = ctx.txHash) := by
    intro t l v hl hv
    rcases hcase t l hl with ⟨l₀, hl₀, _, heq⟩ | ⟨ht, _, heq⟩
    · rw [heq, List.mem_append] at hv
      rcases hv with hv | hv
      · exact Or.inl ⟨l₀, hl₀, hv⟩
      · split at hv
        · next ht => exact Or.inr ⟨List.mem_singleton.mp hv, ht⟩
        · cases hv
    · rw [heq] at hv
      exact Or.inr ⟨List.mem_singleton.mp hv, ht⟩
  have hfresh : ∀ t l v, s.mapTxLocks.find t = some l → v ∈ l.vecConsensusVotes →
      v.getHash ≠ ctx.getHash := by
    intro t l v hl hv heq
    obtain ⟨_, ⟨w, hw⟩, _⟩ := h.vote t l v hl hv
    rw [heq, hnone] at hw
    cases hw
  constructor
  · intro t l hl
    rcases hcase t l hl with ⟨l₀, hl₀, hid, _⟩ | ⟨_, hid, _⟩
    · exact hid.trans (h.keyed t l₀ hl₀)
    · exact hid
  · intro t l v hl hv
    rcases hmem t l v hl hv with ⟨l₀, hl₀, hv₀⟩ | ⟨rfl, ht⟩
    · obtain ⟨ht, ⟨w, hw⟩, env', hmem', hvalid'⟩ := h.vote t l₀ v hl₀ hv₀
      exact ⟨ht, ⟨w, Dict.find_insert_of_some _ hw⟩, env', List.mem_append_left _ hmem',
        hvalid'⟩
    · refine ⟨ht.symm, ⟨v, ?_⟩, env, List.mem_append_right _ List.mem_cons_self, hvalid⟩
      rw [hmap, Dict.find_insert_of_none _ hnone, if_pos rfl]
  · intro t l hl
    rcases hcase t l hl with ⟨l₀, hl₀, _, heq⟩ | ⟨_, _, heq⟩
    · rw [heq, List.map_append]
      split
      · refine List.nodup_append.mpr ⟨h.distinct t l₀ hl₀, by simp, ?_⟩
        intro k hk k' hk' hkk
        obtain ⟨v, hv, rfl⟩ := List.mem_map.mp hk
        obtain rfl : k' = ctx.getHash := by simpa using hk'
        exact hfresh t l₀ v hl₀ hv hkk
      · simpa using h.distinct t l₀ hl₀
    · simp [heq]
  · intro t l t' l' v v' hne hl hl' hv hv'
    rcases hmem t l v hl hv with ⟨l₀, hl₀, hv₀⟩ | ⟨rfl, ht⟩
    · rcases hmem t' l' v' hl' hv' with ⟨l₀', hl₀', hv₀'⟩ | ⟨rfl, _⟩
      · exact h.apart t l₀ t' l₀' v v' hne hl₀ hl₀' hv₀ hv₀'
      · exact hfresh t l₀ v hl₀ hv₀
    · rcases hmem t' l' v' hl' hv' with ⟨l₀', hl₀', hv₀'⟩ | ⟨rfl, ht'⟩
      · exact (hfresh t' l₀' v' hl₀' hv₀').symm
      · exact absurd (ht.trans ht'.symm) hne

theorem VotesKept.cleaned {past : List (Env × Event)} {s s' : State} {env : Env}
    (h : VotesKept verifyMessage past s) (hc : Cleaned env s s.mapTxLocks.toList s') :
    VotesKept verifyMessage past s' := by
  constructor
  · intro t l hl
    exact h.keyed t l ((hc.locks t l).mp hl).1
  · intro t l v hl hv
    obtain ⟨hl₀, hlive⟩ := (hc.locks t l).mp hl
    obtain ⟨ht, ⟨w, hw⟩, hpast⟩ := h.vote t l v hl₀ hv
    refine ⟨ht, ⟨w, (hc.vote _ _).mpr ⟨hw, ?_⟩⟩, hpast⟩
    rintro ⟨t', l', tx, hmem, hexp, _, hk⟩
    obtain ⟨v', hv', heq⟩ := List.mem_map.mp hk
    by_cases htt : t' = t
    · subst htt
      exact hlive ⟨l', hmem, hexp⟩
    · exact h.apart t' l' t l v' v htt (Dict.mem_toList.mp hmem) hl₀ hv' hv heq
  · intro t l hl
    exact h.distinct t l ((hc.locks t l).mp hl).1
  · intro t l t' l' v v' hne hl hl'
    exact h.apart t l t' l' v v' hne ((hc.locks t l).mp hl).1 ((hc.locks t' l').mp hl').1

theorem cleanTransactionLocksList_of_no_tip {env : Env} {s : State} (h : env.tip = none) :
    cleanTransactionLocksList env s = s := by
  simp only [cleanTransactionLocksList, h]
  rfl

theorem votesKept_step (past : List (Env × Event)) (s : State) (e : Env × Event)
    (h : VotesKept verifyMessage past s) :
    VotesKept verifyMessage (past ++ [e]) (step verifyMessage s e) := by
  have hpast : ∀ e' ∈ past, e' ∈ past ++ [e] := fun e' he' => List.mem_append_left _ he'
  have hsame : VotesKept verifyMessage (past ++ [e]) s :=
    h.mono (.refl _) (fun _ v hv => ⟨v, hv⟩) hpast
  obtain ⟨env, ev⟩ := e
  cases ev with
  | ix tx =>
    simp only [step]
    split
    · rcases processRequest_cases verifyMessage env s tx with
        heq | ⟨_, _, V, hV, heq⟩ | ⟨_, _, heq⟩
      · rwa [heq]
      · rw [heq]
        exact h.mono (createNewLock_sameVotes env s tx) hV hpast
      · obtain ⟨R, L, hL, _, hreject⟩ := rejectRequest_eq env
          { s with mapTxLocks := (createNewLock env s tx).1.mapTxLocks } tx
        rw [heq, hreject]
        exact h.mono ((createNewLock_sameVotes env s tx).trans hL.sameVotes)
          (fun _ v hv => ⟨v, hv⟩) hpast
    · exact hsame
  | txlvote ctx =>
    simp only [step]
    split
    · cases hk : s.mapTxLockVote.count ctx.getHash with
      | true => rwa [processVote_of_known hk]
      | false =>
        by_cases hvalid : VoteValid verifyMessage env ctx
        · obtain ⟨U, heq⟩ := processVote_of_valid hk hvalid
          obtain ⟨R, L, I, n, hL, _, _, _, hsettle⟩ :=
            settleLock_eq env (countVote env s ctx) ctx.txHash
          rw [heq, hsettle]
          exact (h.countVote hk hvalid).mono hL.sameVotes (fun _ v hv => ⟨v, hv⟩)
            fun _ he => he
        · rw [processVote_of_not_valid hk hvalid]
          exact h.mono (.refl _) (fun _ v hv => ⟨v, Dict.find_insert_of_some _ hv⟩) hpast
    · exact hsame
  | wallet tx =>
    simp only [step]
    rcases relayWalletTransaction_cases env s tx with heq | heq
    · rwa [heq]
    · rw [heq]
      exact h.mono (createNewLock_sameVotes env s tx) (fun _ v hv => ⟨v, hv⟩) hpast
  | clean =>
    simp only [step]
    cases htip : env.tip with
    | none => rwa [cleanTransactionLocksList_of_no_tip htip]
    | some n =>
      have hsome : env.tip.isSome := by rw [htip]; rfl
      exact hsame.cleaned (cleanTransactionLocksList_cleaned hsome h.keyed)

/-- Every run keeps the votes in order, whatever the requests do. -/
theorem votesKept_run (es : List (Env × Event)) :
    VotesKept verifyMessage es (run (step verifyMessage) State.init es) := by
  have hall : Meets (step verifyMessage) (fun _ _ => True) State.init es := by
    generalize State.init = s
    induction es generalizing s with
    | nil => trivial
    | cons e es ih => exact ⟨trivial, ih _⟩
  exact run_history (fun past s e h _ => votesKept_step past s e h) [] votesKept_init hall

/-- Every locked input belongs to a request whose lock is complete. -/
def InputsBacked (s : State) : Prop :=
  ∀ o t, s.mapLockedInputs.find o = some t → hasQuorum s t = true ∧
    ∃ tx, s.mapTxLockReq.find t = some tx ∧ o ∈ tx.prevouts

/-- A refused request locks no free input, or its votes were complete and unopposed before
it arrived. -/
def RequestBacked (env : Env) (s : State) (tx : CTransaction) : Prop :=
  IxRefused env s tx →
    (∀ o ∈ tx.prevouts, s.mapLockedInputs.find o ≠ none) ∨
    (hasQuorum (createNewLock env s tx).1 tx.getHash = true ∧ conflictingLock s tx = none)

/-- The condition on one step: a refused request is backed by its votes, and the wallet
asks again for no transaction that has locked inputs. -/
def RefusalBacked (s : State) (e : Env × Event) : Prop :=
  match e.2 with
  | .ix tx => RequestBacked e.1 s tx
  | .wallet tx => ∀ o, s.mapLockedInputs.find o ≠ some tx.getHash
  | .txlvote _ => True
  | .clean => True

theorem hasQuorum_createNewLock {env : Env} {s : State} {tx : CTransaction} {t : Uint256}
    (h : t ≠ tx.getHash) : hasQuorum (createNewLock env s tx).1 t = hasQuorum s t :=
  hasQuorum_congr (createNewLock_find_ne env s tx h)

theorem ixWellFormed_fresh {env : Env} {s : State} {tx : CTransaction}
    (h : ixWellFormed env s tx = true) : s.mapTxLockReq.find tx.getHash = none := by
  simp only [ixWellFormed, Bool.and_eq_true, Bool.not_eq_true', Bool.or_eq_false_iff] at h
  exact Dict.count_eq_false.mp h.1.1.1

theorem InputsBacked.not_requested {s : State} (h : InputsBacked s) {o : COutPoint}
    {t t' : Uint256} (ho : s.mapLockedInputs.find o = some t)
    (ht' : s.mapTxLockReq.find t' = none) : t ≠ t' := by
  rintro rfl
  obtain ⟨_, tx, htx, _⟩ := h o t ho
  rw [ht'] at htx
  cases htx

theorem inputsBacked_processRequest {env : Env} {s : State} {tx : CTransaction}
    (h : InputsBacked s) (hh : env.handles = true) (hc : RefusalBacked s (env, .ix tx)) :
    InputsBacked (processRequest verifyMessage env s tx) := by
  rcases processRequest_cases verifyMessage env s tx with
    heq | ⟨hw, _, V, _, heq⟩ | ⟨hw, ha, heq⟩
  · rwa [heq]
  · rw [heq]
    intro o t ho
    have hne : t ≠ tx.getHash := h.not_requested ho (ixWellFormed_fresh hw)
    obtain ⟨hq, r, hr, hor⟩ := h o t ho
    exact ⟨(hasQuorum_createNewLock hne).trans hq, r, Dict.find_insert_of_some _ hr, hor⟩
  · have hfresh := ixWellFormed_fresh hw
    obtain ⟨R, L, hL, hR, hreject⟩ := rejectRequest_eq env
      { s with mapTxLocks := (createNewLock env s tx).1.mapTxLocks } tx
    rw [heq, hreject]
    intro o t ho
    have hquorum : ∀ t, hasQuorum (createNewLock env s tx).1 t = true →
        hasQuorum { s with
          mapTxLockReqRejected := s.mapTxLockReqRejected.insert tx.getHash tx
          mapLockedInputs := s.mapLockedInputs.insertAll tx.prevouts tx.getHash
          mapTxLocks := L
          mapTxLockReq := R } t = true := fun t hq => (hL.hasQuorum t).trans hq
    rcases find_insertAll_eq_some ho with ho | ⟨hnone, hmem, rfl⟩
    · have hne : t ≠ tx.getHash := h.not_requested ho hfresh
      obtain ⟨hq, r, hr, hor⟩ := h o t ho
      refine ⟨hquorum t ((hasQuorum_createNewLock hne).trans hq), r, ?_, hor⟩
      rcases hR with ⟨_, _, rfl⟩ | ⟨_, rfl⟩
      · exact Dict.find_insert_of_some _ hr
      · exact hr
    · rcases hc ⟨hh, hw, ha⟩ with hall | ⟨hq, hconf⟩
      · exact absurd hnone (hall o hmem)
      · refine ⟨hquorum _ hq, tx, ?_, hmem⟩
        rcases hR with ⟨_, _, rfl⟩ | ⟨hno, _⟩
        · rw [Dict.find_insert_of_none _ hfresh, if_pos rfl]
        · exact absurd ⟨hq, hconf⟩ hno

theorem inputsBacked_processVote {env : Env} {s : State} {ctx : CConsensusVote}
    (h : InputsBacked s) : InputsBacked (processVote verifyMessage env s ctx) := by
  cases hk : s.mapTxLockVote.count ctx.getHash with
  | true => rwa [processVote_of_known hk]
  | false =>
    by_cases hvalid : VoteValid verifyMessage env ctx
    · obtain ⟨U, heq⟩ := processVote_of_valid hk hvalid
      obtain ⟨R, L, I, n, hL, hkeep, _, hI, hsettle⟩ :=
        settleLock_eq env (countVote env s ctx) ctx.txHash
      rw [heq, hsettle]
      have hquorum : ∀ t, hasQuorum (countVote env s ctx) t = true →
          hasQuorum { countVote env s ctx with
            mapTxLockReq := R, mapTxLocks := L, mapLockedInputs := I, nCompleteTXLocks := n,
            mapUnknownVotes := U } t = true := fun t hq => (hL.hasQuorum t).trans hq
      have hold : ∀ o t, s.mapLockedInputs.find o = some t →
          hasQuorum (countVote env s ctx) t = true ∧
            ∃ tx, R.find t = some tx ∧ o ∈ tx.prevouts := by
        intro o t ho
        obtain ⟨hq, r, hr, hor⟩ := h o t ho
        exact ⟨hasQuorum_compileVote ctx hq, r, hkeep t r hr, hor⟩
      intro o t ho
      rcases hI with rfl | ⟨hq, r, hr, _, rfl⟩
      · obtain ⟨hq, hreq⟩ := hold o t ho
        exact ⟨hquorum t hq, hreq⟩
      · rcases find_insertAll_eq_some ho with ho | ⟨_, hmem, rfl⟩
        · obtain ⟨hq', hreq⟩ := hold o t ho
          exact ⟨hquorum t hq', hreq⟩
        · exact ⟨hquorum _ hq, r, hr, hmem⟩
    · rw [processVote_of_not_valid hk hvalid]
      exact h

theorem inputsBacked_wallet {env : Env} {s : State} {tx : CTransaction} (h : InputsBacked s)
    (hc : RefusalBacked s (env, .wallet tx)) :
    InputsBacked (relayWalletTransaction env s tx) := by
  rcases relayWalletTransaction_cases env s tx with heq | heq
  · rwa [heq]
  · rw [heq]
    intro o t ho
    have hne : t ≠ tx.getHash := fun hte => hc o (hte ▸ ho)
    obtain ⟨hq, r, hr, hor⟩ := h o t ho
    exact ⟨(hasQuorum_createNewLock hne).trans hq, r, Dict.find_insert_of_some _ hr, hor⟩

theorem inputsBacked_cleaned {env : Env} {s s' : State} (h : InputsBacked s)
    (hc : Cleaned env s s.mapTxLocks.toList s') : InputsBacked s' := by
  intro o t ho
  obtain ⟨ho₀, hkept⟩ := (hc.locked o t).mp ho
  obtain ⟨hq, r, hr, hor⟩ := h o t ho₀
  have hlive : ¬∃ l', (t, l') ∈ s.mapTxLocks.toList ∧ Expired env l' := by
    rintro ⟨l', hmem, hexp⟩
    exact hkept ⟨t, l', r, hmem, hexp, hr, hor⟩
  obtain ⟨l, hl, hcount⟩ := hasQuorum_iff.mp hq
  exact ⟨hasQuorum_iff.mpr ⟨l, (hc.locks t l).mpr ⟨hl, hlive⟩, hcount⟩, r,
    (hc.req t r).mpr ⟨hr, hlive⟩, hor⟩

theorem inputsBacked_step {s : State} {e : Env × Event} (h : InputsBacked s)
    (hkey : KeyedLocks s) (hc : RefusalBacked s e) :
    InputsBacked (step verifyMessage s e) := by
  obtain ⟨env, ev⟩ := e
  cases ev with
  | ix tx =>
    simp only [step]
    split
    · next hh => exact inputsBacked_processRequest h hh hc
    · exact h
  | txlvote ctx =>
    simp only [step]
    split
    · exact inputsBacked_processVote h
    · exact h
  | wallet tx => exact inputsBacked_wallet h hc
  | clean =>
    simp only [step]
    cases htip : env.tip with
    | none => rwa [cleanTransactionLocksList_of_no_tip htip]
    | some n =>
      have hsome : env.tip.isSome := by rw [htip]; rfl
      exact inputsBacked_cleaned h (cleanTransactionLocksList_cleaned hsome hkey)

theorem inputsBacked_run {es : List (Env × Event)}
    (h : Meets (step verifyMessage) RefusalBacked State.init es) :
    InputsBacked (run (step verifyMessage) State.init es) := by
  have hinit : VotesKept verifyMessage [] State.init ∧ InputsBacked State.init :=
    ⟨votesKept_init, fun o t ho => by simp [State.init] at ho⟩
  refine (run_history (I := fun past s => VotesKept verifyMessage past s ∧
    InputsBacked s) ?_ [] hinit h).2
  intro past s e hs hc
  exact ⟨votesKept_step past s e hs.1, inputsBacked_step hs.2 hs.1.keyed hc⟩

/-- The lock of `t` holds enough votes at its height; they come from different
masternodes, and each was received in `past` and verified. -/
def Quorum (verifyMessage : Bytes → Bytes → String → Bool) (past : List (Env × Event))
    (s : State) (t : Uint256) : Prop :=
  ∃ (l : CTransactionLock) (vs : List CConsensusVote), s.mapTxLocks.find t = some l ∧
    vs.Sublist l.vecConsensusVotes ∧ signaturesRequired ≤ (vs.length : ℤ) ∧
    (vs.map fun v => v.vinMasternode.prevout).Nodup ∧
    ∀ v ∈ vs, v.txHash = t ∧ v.nBlockHeight = l.nBlockHeight ∧
      ∃ env, (env, Event.txlvote v) ∈ past ∧ VoteValid verifyMessage env v

theorem VotesKept.quorum {past : List (Env × Event)} {s : State} {t : Uint256}
    (h : VotesKept verifyMessage past s) (hq : hasQuorum s t = true) :
    Quorum verifyMessage past s t := by
  obtain ⟨l, hl, hcount⟩ := hasQuorum_iff.mp hq
  let vs := l.vecConsensusVotes.filter fun v => v.nBlockHeight = l.nBlockHeight
  have hmem : ∀ v ∈ vs, v ∈ l.vecConsensusVotes ∧ v.nBlockHeight = l.nBlockHeight := by
    intro v hv
    simpa [vs] using hv
  refine ⟨l, vs, hl, List.filter_sublist, ?_, ?_, ?_⟩
  · unfold CTransactionLock.countSignatures at hcount
    split at hcount
    · exact absurd hcount (by decide)
    · rwa [List.countP_eq_length_filter] at hcount
  · have hnodup : (vs.map CConsensusVote.getHash).Nodup :=
      (h.distinct t l hl).sublist (List.filter_sublist.map _)
    rw [List.nodup_iff_pairwise_ne, List.pairwise_map] at hnodup ⊢
    refine hnodup.imp_of_mem ?_
    intro v w hv hw hne heq
    obtain ⟨hvt, _⟩ := h.vote t l v hl (hmem v hv).1
    obtain ⟨hwt, _⟩ := h.vote t l w hl (hmem w hw).1
    exact hne (by simp only [CConsensusVote.getHash, heq, hvt, hwt])
  · intro v hv
    obtain ⟨hvl, hheight⟩ := hmem v hv
    obtain ⟨hvt, _, hreceived⟩ := h.vote t l v hl hvl
    exact ⟨hvt, hheight, hreceived⟩

theorem Quorum.exists_vote {past : List (Env × Event)} {s : State} {t : Uint256}
    (h : Quorum verifyMessage past s t) : ∃ env v, (env, Event.txlvote v) ∈ past ∧
      v.txHash = t ∧ VoteValid verifyMessage env v := by
  obtain ⟨l, vs, _, _, hlen, _, hvs⟩ := h
  obtain ⟨v, hv⟩ := List.exists_mem_of_length_pos (l := vs) (by
    have : (6 : ℤ) ≤ vs.length := hlen
    omega)
  obtain ⟨ht, _, env, hmem, hvalid⟩ := hvs v hv
  exact ⟨env, v, hmem, ht, hvalid⟩

section Runs

/-- A synced node at height 1000 whose masternodes all rank first. -/
def sampleNode : Env where
  fLiteMode := false
  sporks := ⟨.empty, 1600000000⟩
  isBlockchainSynced := true
  tip := some 1000
  coinsHeight := fun _ => some 900
  getTransaction := fun _ => none
  mempoolTakes := fun _ => true
  getMasternodeRank := fun _ _ _ => 1
  pubKeyMasternode := fun _ => some []
  fMasterNode := false
  activeMasternode := ⟨.null, [], 0⟩
  activePubKey := none
  signMessage := fun _ => none
  updatedTransaction := fun _ => false
  depthInMainChain := fun _ => 0

def sampleCoin : COutPoint := ⟨7, 0⟩

/-- A transaction that spends `sampleCoin` into an unspendable output. -/
def spend (hash : Uint256) : CTransaction :=
  ⟨hash, 1, [⟨sampleCoin, [], 0⟩], [⟨0, [Script.opReturn], -10⟩], 0⟩

/-- Signatures of a toy scheme: the one-byte signature `1` verifies. -/
def sampleVerify (_ sig : Bytes) (_ : String) : Bool := sig == [1]

def sampleVote (n : BitVec 32) (txHash : Uint256) : CConsensusVote :=
  ⟨⟨⟨50, n⟩, [], 0⟩, txHash, 903, [1]⟩

def sampleLockRun : List (Env × Event) :=
  (sampleNode, .ix (spend 1)) ::
    (List.range 6).map fun n => (sampleNode, .txlvote (sampleVote (BitVec.ofNat 32 n) 1))

end Runs

end Scrypta.SwiftTX
