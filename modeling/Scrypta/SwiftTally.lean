import Mathlib.Data.List.Dedup
import Scrypta.SwiftOrder

/-! The tally of a lock beside the votes that the node accepted. A received vote joins its lock;
the vote that the node casts itself is written to `mapTxLockVote` only, where it also keeps its
own echo from being counted. The quorum of a transaction that was never requested leaves an empty
transaction behind. The tally is right in the runs that meet neither case. -/

namespace Scrypta.SwiftTX

open Runs

variable {verifyMessage : Bytes → Bytes → String → Bool}

section Accepted

variable (verifyMessage)

/-- The vote that an event adds to the accepted ones: a received vote that is new and valid, or
the vote that the node casts on a request. -/
def acceptedVote (s : State) (e : Env × Event) : Option CConsensusVote :=
  match e.2 with
  | .ix tx =>
    if e.1.handles && ixWellFormed e.1 s tx && acceptToMemoryPool e.1 s tx then
      ownVote verifyMessage e.1 tx (createNewLock e.1 s tx).2
    else none
  | .txlvote ctx =>
    if e.1.handles = true ∧ s.mapTxLockVote.count ctx.getHash = false ∧
        VoteValid verifyMessage e.1 ctx then
      some ctx
    else none
  | .wallet _ => none
  | .clean => none

/-- The votes accepted in a run, oldest first. -/
def acceptedVotes : State → List (Env × Event) → List CConsensusVote
  | _, [] => []
  | s, e :: es => (acceptedVote verifyMessage s e).toList ++
      acceptedVotes (step verifyMessage s e) es

theorem acceptedVotes_append (s : State) (es fs : List (Env × Event)) :
    acceptedVotes verifyMessage s (es ++ fs) = acceptedVotes verifyMessage s es ++
      acceptedVotes verifyMessage (run (step verifyMessage) s es) fs := by
  induction es generalizing s with
  | nil => rfl
  | cons e es ih =>
    rw [List.cons_append, acceptedVotes, acceptedVotes, ih, List.append_assoc]
    rfl

end Accepted

/-- The masternodes with a vote on `t` at the height `h`. -/
def voters (votes : List CConsensusVote) (t : Uint256) (h : ℤ) : List COutPoint :=
  ((votes.filter fun v => v.txHash = t ∧ v.nBlockHeight = h).map (·.vinMasternode.prevout)).dedup

/-- Every lock of known height counts its voters, and every request is kept under its id. -/
structure Tallies (votes : List CConsensusVote) (s : State) : Prop where
  counted : ∀ t l, s.mapTxLocks.find t = some l → l.countSignatures =
    if l.nBlockHeight = 0 then -1 else ((voters votes t l.nBlockHeight).length : ℤ)
  requests : ∀ t tx, s.mapTxLockReq.find t = some tx → tx.getHash = t

/-- The lock of the vote holds one of the same masternode for the same height. -/
def Holds (s : State) (a : CConsensusVote) : Prop :=
  ∃ l, s.mapTxLocks.find a.txHash = some l ∧ ∃ v ∈ l.vecConsensusVotes,
    v.vinMasternode.prevout = a.vinMasternode.prevout ∧ v.nBlockHeight = a.nBlockHeight

/-- The events of the handlers that keep the tally right: no request makes the node cast a vote
that its lock does not hold yet, and no vote completes a lock without a request. -/
def KeepsTally (verifyMessage : Bytes → Bytes → String → Bool) (s : State) (e : Env × Event) :
    Prop :=
  match e.2 with
  | .ix _ => ∀ a, acceptedVote verifyMessage s e = some a → a.nBlockHeight ≠ 0 → Holds s a
  | .txlvote ctx => VoteCompletes verifyMessage e.1 s ctx → ctx.txHash ≠ 0 →
      ∃ tx, s.mapTxLockReq.find ctx.txHash = some tx
  | .wallet _ => True
  -- the cleanup is no handler
  | .clean => False

section Locks

/-- Every lock is kept with its votes. -/
def LocksKept (old new : Dict Uint256 CTransactionLock) : Prop :=
  ∀ t l, old.find t = some l →
    ∃ l', new.find t = some l' ∧ l'.vecConsensusVotes = l.vecConsensusVotes

theorem LocksKept.refl (m : Dict Uint256 CTransactionLock) : LocksKept m m :=
  fun _ l h => ⟨l, h, rfl⟩

theorem LocksKept.trans {a b c : Dict Uint256 CTransactionLock} (hab : LocksKept a b)
    (hbc : LocksKept b c) : LocksKept a c := by
  intro t l h
  obtain ⟨l', hl', hv'⟩ := hab t l h
  obtain ⟨l'', hl'', hv''⟩ := hbc t l' hl'
  exact ⟨l'', hl'', hv''.trans hv'⟩

theorem SameButExpiry.locksKept {old new : Dict Uint256 CTransactionLock}
    (h : SameButExpiry old new) : LocksKept old new := by
  intro t l hl
  rcases h t with heq | ⟨l₀, e, hl₀, hnew⟩
  · exact ⟨l, heq.trans hl, rfl⟩
  · obtain rfl := Option.some.inj (hl₀.symm.trans hl)
    exact ⟨_, hnew, rfl⟩

theorem createNewLock_locksKept (env : Env) (s : State) (tx : CTransaction) :
    LocksKept s.mapTxLocks (createNewLock env s tx).1.mapTxLocks := by
  intro t l hl
  unfold createNewLock
  cases lockHeight env tx with
  | none => exact ⟨l, hl, rfl⟩
  | some n =>
    simp only
    split
    · rw [Dict.find_modify, hl]
      split
      · next ht =>
        rw [← ht, hl]
        exact ⟨_, rfl, rfl⟩
      · exact ⟨l, rfl, rfl⟩
    · exact ⟨l, Dict.find_insert_of_some _ hl, rfl⟩

theorem Holds.mono {s s' : State} {a : CConsensusVote} (h : Holds s a)
    (hlocks : LocksKept s.mapTxLocks s'.mapTxLocks) : Holds s' a := by
  obtain ⟨l, hl, v, hv, hsame⟩ := h
  obtain ⟨l', hl', hvotes⟩ := hlocks _ l hl
  exact ⟨l', hl', v, hvotes ▸ hv, hsame⟩

theorem settleLock_requests (env : Env) (s : State) (t : Uint256) :
    (settleLock env s t).mapTxLockReq =
      if hasQuorum s t then s.mapTxLockReq.insert t .null else s.mapTxLockReq := by
  unfold settleLock
  split
  · obtain ⟨L, I, n, -, -, heq⟩ := lockInputs_eq env s t
    rw [heq]
  · rfl

end Locks

section Steps

/-- What the handlers keep: the locks hold accepted votes only, and every accepted vote of a
known height is held. -/
structure Tallying (votes : List CConsensusVote) (s : State) : Prop where
  accepted : ∀ t l v, s.mapTxLocks.find t = some l → v ∈ l.vecConsensusVotes → v ∈ votes
  held : ∀ a ∈ votes, a.nBlockHeight ≠ 0 → Holds s a
  requests : ∀ t tx, s.mapTxLockReq.find t = some tx → tx.getHash = t

theorem tallying_init : Tallying [] State.init where
  accepted t l v h := by simp [State.init] at h
  held a h := absurd h List.not_mem_nil
  requests t tx h := by simp [State.init] at h

variable {votes more : List CConsensusVote} {s s' : State} {env : Env}

/-- Steps that add no vote to a lock. -/
theorem Tallying.mono (h : Tallying votes s) (hsame : SameVotes s.mapTxLocks s'.mapTxLocks)
    (hkept : LocksKept s.mapTxLocks s'.mapTxLocks)
    (hmore : ∀ a ∈ more, a.nBlockHeight ≠ 0 → Holds s a)
    (hreq : ∀ t tx, s'.mapTxLockReq.find t = some tx →
      s.mapTxLockReq.find t = some tx ∨ tx.getHash = t) :
    Tallying (votes ++ more) s' where
  accepted t l v hl hv := by
    rcases hsame t l hl with ⟨l₀, hl₀, -, heq⟩ | ⟨-, hnil⟩
    · exact List.mem_append_left _ (h.accepted t l₀ v hl₀ (heq ▸ hv))
    · rw [hnil] at hv
      cases hv
  held a ha hheight := by
    rcases List.mem_append.mp ha with ha | ha
    · exact (h.held a ha hheight).mono hkept
    · exact (hmore a ha hheight).mono hkept
  requests t tx htx := by
    rcases hreq t tx htx with hold | hid
    · exact h.requests t tx hold
    · exact hid

theorem Tallying.unchanged (h : Tallying votes s) : Tallying (votes ++ []) s :=
  h.mono (.refl _) (.refl _) (fun _ ha => absurd ha List.not_mem_nil) fun _ _ htx => Or.inl htx

theorem find_insert_getHash {m : Dict Uint256 CTransaction} {t : Uint256} {tx tx' : CTransaction}
    (h : (m.insert tx.getHash tx).find t = some tx') : m.find t = some tx' ∨ tx'.getHash = t := by
  cases hm : m.find tx.getHash with
  | some w =>
    rw [Dict.insert_of_some _ hm] at h
    exact Or.inl h
  | none =>
    rw [Dict.find_insert_of_none _ hm] at h
    split at h
    · next ht =>
      obtain rfl := Option.some.inj h
      exact Or.inr ht.symm
    · exact Or.inl h

theorem Tallying.request (h : Tallying votes s) (tx : CTransaction)
    (hmore : ∀ a ∈ more, a.nBlockHeight ≠ 0 → Holds s a) :
    Tallying (votes ++ more) (processRequest verifyMessage env s tx) := by
  have hnew := createNewLock_sameVotes env s tx
  have hkept := createNewLock_locksKept env s tx
  rcases processRequest_cases verifyMessage env s tx with heq | ⟨-, -, V, -, heq⟩ | ⟨-, -, heq⟩
  · rw [heq]
    exact h.mono (.refl _) (.refl _) hmore fun _ _ htx => Or.inl htx
  · rw [heq]
    exact h.mono hnew hkept hmore fun _ _ htx => find_insert_getHash htx
  · obtain ⟨R, L, hL, hR, hreject⟩ := rejectRequest_eq env
      { s with mapTxLocks := (createNewLock env s tx).1.mapTxLocks } tx
    rw [heq, hreject]
    refine h.mono (hnew.trans hL.sameVotes) (hkept.trans hL.locksKept) hmore fun t tx' htx => ?_
    rcases hR with ⟨-, -, rfl⟩ | ⟨-, rfl⟩
    · exact find_insert_getHash htx
    · exact Or.inl htx

variable {ctx : CConsensusVote}

theorem countVote_find (t : Uint256) : (countVote env s ctx).mapTxLocks.find t =
    if t = ctx.txHash then
      some (((s.mapTxLocks.find t).getD (newLock env ctx.txHash 0)).addSignature ctx)
    else s.mapTxLocks.find t :=
  compileVote_find env _ ctx t

/-- A vote that is counted is held by its lock, beside the votes held before. -/
theorem holds_countVote {a : CConsensusVote} (h : Holds s a ∨ a = ctx) :
    Holds (countVote env s ctx) a := by
  by_cases ht : a.txHash = ctx.txHash
  · refine ⟨((s.mapTxLocks.find a.txHash).getD (newLock env ctx.txHash 0)).addSignature ctx, ?_, ?_⟩
    · rw [countVote_find, if_pos ht]
    · rcases h with ⟨l, hl, v, hv, hsame⟩ | rfl
      · rw [hl]
        exact ⟨v, List.mem_append_left _ hv, hsame⟩
      · exact ⟨a, List.mem_append_right _ List.mem_cons_self, rfl, rfl⟩
  · rcases h with ⟨l, hl, v, hv, hsame⟩ | rfl
    · refine ⟨l, ?_, v, hv, hsame⟩
      rw [countVote_find, if_neg ht, hl]
    · exact absurd rfl ht

theorem Tallying.countVote (h : Tallying votes s) :
    Tallying (votes ++ [ctx]) (countVote env s ctx) where
  accepted t l v hl hv := by
    rw [countVote_find] at hl
    split at hl
    · obtain rfl := Option.some.inj hl
      rcases List.mem_append.mp hv with hv | hv
      · cases hs : s.mapTxLocks.find t with
        | none =>
          rw [hs] at hv
          cases hv
        | some l₀ =>
          rw [hs] at hv
          exact List.mem_append_left _ (h.accepted t l₀ v hs hv)
      · exact List.mem_append_right _ hv
    · exact List.mem_append_left _ (h.accepted t l v hl hv)
  held a ha hheight := by
    rcases List.mem_append.mp ha with ha | ha
    · exact holds_countVote (Or.inl (h.held a ha hheight))
    · exact holds_countVote (Or.inr (List.mem_singleton.mp ha))
  requests := h.requests

theorem Tallying.vote (h : Tallying votes s)
    (hk : s.mapTxLockVote.count ctx.getHash = false) (hvalid : VoteValid verifyMessage env ctx)
    (hreq : hasQuorum (compileVote env s ctx) ctx.txHash = true → ctx.txHash ≠ 0 →
      ∃ tx, s.mapTxLockReq.find ctx.txHash = some tx) :
    Tallying (votes ++ [ctx]) (processVote verifyMessage env s ctx) := by
  obtain ⟨U, heq⟩ := processVote_of_valid hk hvalid
  obtain ⟨R, L, I, n, hL, -, -, -, hsettle⟩ :=
    settleLock_eq env (SwiftTX.countVote env s ctx) ctx.txHash
  have hcounted : Tallying (votes ++ [ctx]) (SwiftTX.countVote env s ctx) := h.countVote
  have hlocks : (settleLock env (SwiftTX.countVote env s ctx) ctx.txHash).mapTxLocks = L := by
    rw [hsettle]
  have hsettled : Tallying ((votes ++ [ctx]) ++ [])
      { settleLock env (SwiftTX.countVote env s ctx) ctx.txHash with mapUnknownVotes := U } := by
    refine hcounted.mono ?_ ?_ (fun _ ha => absurd ha List.not_mem_nil) fun t tx htx => ?_
    · rw [hlocks]
      exact hL.sameVotes
    · rw [hlocks]
      exact hL.locksKept
    · simp only [settleLock_requests] at htx
      split at htx
      · next hq =>
        rw [Dict.find_insert] at htx
        split at htx
        · next ht =>
          subst ht
          by_cases hzero : ctx.txHash = 0
          · cases hs : s.mapTxLockReq.find ctx.txHash with
            | some tx' => exact Or.inl (by rw [← htx]; simp [SwiftTX.countVote, compileVote, hs])
            | none =>
              have hnull : tx = .null := by
                rw [show (SwiftTX.countVote env s ctx).mapTxLockReq = s.mapTxLockReq from rfl,
                  hs] at htx
                exact (Option.some.inj htx).symm
              exact Or.inr (by rw [hnull, hzero]; rfl)
          · obtain ⟨tx', htx'⟩ := hreq hq hzero
            refine Or.inl ?_
            rw [show (SwiftTX.countVote env s ctx).mapTxLockReq = s.mapTxLockReq from rfl,
              htx'] at htx ⊢
            exact htx
        · exact Or.inl htx
      · exact Or.inl htx
  rw [heq]
  rwa [List.append_nil] at hsettled

theorem tallying_step (h : Tallying votes s) {e : Env × Event}
    (he : KeepsTally verifyMessage s e) :
    Tallying (votes ++ (acceptedVote verifyMessage s e).toList) (step verifyMessage s e) := by
  obtain ⟨env, ev⟩ := e
  cases ev with
  | ix tx =>
    have hmore : ∀ a ∈ (acceptedVote verifyMessage s (env, .ix tx)).toList, a.nBlockHeight ≠ 0 →
        Holds s a := fun a ha hheight => he a (Option.mem_toList.mp ha) hheight
    change Tallying _ (if env.handles then processRequest verifyMessage env s tx else s)
    split
    · exact h.request tx hmore
    · exact h.mono (.refl _) (.refl _) hmore fun _ _ htx => Or.inl htx
  | txlvote ctx =>
    change Tallying (votes ++ (if env.handles = true ∧ s.mapTxLockVote.count ctx.getHash = false ∧
        VoteValid verifyMessage env ctx then some ctx else none).toList)
      (if env.handles then processVote verifyMessage env s ctx else s)
    by_cases hhandles : env.handles = true
    · rw [if_pos hhandles]
      cases hk : s.mapTxLockVote.count ctx.getHash with
      | true =>
        rw [processVote_of_known hk, if_neg fun hc => nomatch hc.2.1]
        exact h.unchanged
      | false =>
        by_cases hvalid : VoteValid verifyMessage env ctx
        · rw [if_pos ⟨hhandles, rfl, hvalid⟩]
          exact h.vote hk hvalid fun hq => he ⟨hhandles, hk, hvalid, hq⟩
        · rw [if_neg fun hc => hvalid hc.2.2, processVote_of_not_valid hk hvalid]
          exact { h.unchanged with }
    · rw [if_neg hhandles, if_neg fun hc => hhandles hc.1]
      exact h.unchanged
  | wallet tx =>
    change Tallying (votes ++ []) (relayWalletTransaction env s tx)
    rcases relayWalletTransaction_cases env s tx with heq | heq
    · rw [heq]
      exact h.unchanged
    · rw [heq]
      exact h.mono (createNewLock_sameVotes env s tx) (createNewLock_locksKept env s tx)
        (fun _ ha => absurd ha List.not_mem_nil) fun _ _ htx => find_insert_getHash htx
  | clean => exact he.elim

end Steps

section Tally

variable {votes : List CConsensusVote} {s : State} {past : List (Env × Event)}

theorem mem_voters {t : Uint256} {n : ℤ} {o : COutPoint} : o ∈ voters votes t n ↔
    ∃ v ∈ votes, (v.txHash = t ∧ v.nBlockHeight = n) ∧ v.vinMasternode.prevout = o := by
  rw [voters, List.mem_dedup]
  simp [and_assoc]

/-- A masternode has at most one vote in a lock. -/
theorem VotesKept.nodup_prevouts (h : VotesKept verifyMessage past s) {t : Uint256}
    {l : CTransactionLock} (hl : s.mapTxLocks.find t = some l) :
    (l.vecConsensusVotes.map (·.vinMasternode.prevout)).Nodup := by
  have hnodup : l.vecConsensusVotes.Nodup := (h.distinct t l hl).of_map _
  refine hnodup.map_on fun v hv w hw heq => ?_
  have htx : v.txHash = w.txHash := (h.vote t l v hl hv).1.trans (h.vote t l w hl hw).1.symm
  have hkey : v.getHash = w.getHash := by
    simp only [CConsensusVote.getHash, heq, htx]
  exact List.inj_on_of_nodup_map (h.distinct t l hl) hv hw hkey

theorem Tallying.tallies (h : Tallying votes s) (hkept : VotesKept verifyMessage past s) :
    Tallies votes s where
  counted t l hl := by
    unfold CTransactionLock.countSignatures
    by_cases hheight : l.nBlockHeight = 0
    · rw [if_pos hheight, if_pos hheight]
    rw [if_neg hheight, if_neg hheight, List.countP_eq_length_filter]
    have hsub : ((l.vecConsensusVotes.filter fun v => v.nBlockHeight = l.nBlockHeight).map
        (·.vinMasternode.prevout)).Nodup :=
      (hkept.nodup_prevouts hl).sublist (List.filter_sublist.map _)
    have hperm : ((l.vecConsensusVotes.filter fun v => v.nBlockHeight = l.nBlockHeight).map
        (·.vinMasternode.prevout)).Perm (voters votes t l.nBlockHeight) := by
      refine (List.perm_ext_iff_of_nodup hsub (List.nodup_dedup _)).mpr fun o => ?_
      rw [← voters, mem_voters]
      constructor
      · intro ho
        obtain ⟨v, hv, rfl⟩ := List.mem_map.mp ho
        obtain ⟨hv, hn⟩ := List.mem_filter.mp hv
        exact ⟨v, h.accepted t l v hl hv, ⟨(hkept.vote t l v hl hv).1, of_decide_eq_true hn⟩, rfl⟩
      · rintro ⟨a, ha, ⟨rfl, hn⟩, rfl⟩
        obtain ⟨l', hl', v, hv, hprev, hsame⟩ := h.held a ha (hn ▸ hheight)
        obtain rfl := Option.some.inj (hl'.symm.trans hl)
        exact List.mem_map.mpr ⟨v, List.mem_filter.mpr ⟨hv, decide_eq_true (hsame.trans hn)⟩, hprev⟩
    rw [← hperm.length_eq, List.length_map]
  requests := h.requests

end Tally

section Samples

/-- `sampleNode` as a masternode that votes. -/
def votingNode : Env :=
  { sampleNode with
    fMasterNode := true
    activeMasternode := ⟨⟨50, 9⟩, [], 0⟩
    activePubKey := some []
    signMessage := fun _ => some [1] }

/-- Six valid votes on a request that the mempool refused. -/
def refusedRun : List (Env × Event) :=
  ({ sampleNode with mempoolTakes := fun _ => false }, .ix (spend 1)) ::
    (List.range 6).map fun n => (sampleNode, .txlvote (sampleVote (BitVec.ofNat 32 n) 1))

end Samples

end Scrypta.SwiftTX
