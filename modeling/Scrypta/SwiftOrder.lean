import Scrypta.SwiftQuorum

/-! One request and the votes on it in any order. What the maps hold of the transaction follows a
small machine of its own: the keys that are known, the votes that are held, the height of the
lock, and whether its inputs are locked. -/

namespace Scrypta.SwiftTX

open Runs

variable {verifyMessage : Bytes → Bytes → String → Bool}

/-! The small machine. -/

/-- Six of the votes name the height of the lock. -/
def quorumOf (n : ℤ) (held : List CConsensusVote) : Bool :=
  decide (n ≠ 0 ∧ signaturesRequired ≤ held.countP fun v => v.nBlockHeight = n)

structure Progress where
  known : List Uint256
  held : List CConsensusVote
  height : ℤ
  requested : Bool
  locked : Bool

namespace Progress

def start : Progress := ⟨[], [], 0, false, false⟩

def vote (p : Progress) (v : CConsensusVote) : Progress :=
  if v.getHash ∈ p.known then p
  else { p with
    known := v.getHash :: p.known
    held := p.held ++ [v]
    locked := p.locked || quorumOf p.height (p.held ++ [v]) }

/-- The request gives the lock its height and makes the key of the node's own vote known. -/
def request (p : Progress) (n : ℤ) (own : Option CConsensusVote) : Progress :=
  { p with
    known := (own.map CConsensusVote.getHash).toList ++ p.known
    height := n
    requested := true }

theorem quorumOf_append {n : ℤ} {held : List CConsensusVote} (more : List CConsensusVote)
    (h : quorumOf n held = true) : quorumOf n (held ++ more) = true := by
  obtain ⟨hn, hcount⟩ := of_decide_eq_true h
  refine decide_eq_true ⟨hn, hcount.trans ?_⟩
  exact Int.ofNat_le.mpr (List.Sublist.countP_le (List.sublist_append_left _ _))

section Votes

variable {p : Progress} {votes : List CConsensusVote}

/-- A vote that is held was held before, or its key was not known. -/
theorem mem_held {v : CConsensusVote} (h : v ∈ (votes.foldl vote p).held) :
    v ∈ p.held ∨ v ∈ votes ∧ v.getHash ∉ p.known := by
  induction votes generalizing p with
  | nil => exact Or.inl h
  | cons w rest ih =>
    rw [List.foldl_cons] at h
    by_cases hw : w.getHash ∈ p.known
    · rw [vote, if_pos hw] at h
      exact (ih h).imp id fun hv => ⟨List.mem_cons_of_mem _ hv.1, hv.2⟩
    · rw [vote, if_neg hw] at h
      rcases ih h with hheld | ⟨hrest, hkey⟩
      · rcases List.mem_append.mp hheld with hp | hnew
        · exact Or.inl hp
        · obtain rfl := List.mem_singleton.mp hnew
          exact Or.inr ⟨List.mem_cons_self, hw⟩
      · exact Or.inr ⟨List.mem_cons_of_mem _ hrest, fun hk => hkey (List.mem_cons_of_mem _ hk)⟩

/-- The held votes have different keys, which are known. -/
def Distinct (p : Progress) : Prop :=
  (p.held.map CConsensusVote.getHash).Nodup ∧ ∀ v ∈ p.held, v.getHash ∈ p.known

theorem Distinct.foldl (h : p.Distinct) : (votes.foldl vote p).Distinct := by
  induction votes generalizing p with
  | nil => exact h
  | cons w rest ih =>
    refine ih ?_
    unfold vote
    split
    · exact h
    · next hw =>
      constructor
      · rw [List.map_append, List.nodup_append]
        refine ⟨h.1, List.nodup_singleton _, fun k hk k' hk' => ?_⟩
        obtain ⟨v, hv, rfl⟩ := List.mem_map.mp hk
        obtain rfl := List.mem_singleton.mp hk'
        exact fun heq => hw (heq ▸ h.2 v hv)
      · intro v hv
        rcases List.mem_append.mp hv with hp | hnew
        · exact List.mem_cons_of_mem _ (h.2 v hp)
        · obtain rfl := List.mem_singleton.mp hnew
          exact List.mem_cons_self

/-- Votes with new keys are all held, and the last of them decides about the lock. -/
theorem foldl_fresh (hnodup : (votes.map CConsensusVote.getHash).Nodup)
    (hfresh : ∀ v ∈ votes, v.getHash ∉ p.known) :
    (votes.foldl vote p).held = p.held ++ votes ∧
      (votes.foldl vote p).height = p.height ∧ (votes.foldl vote p).requested = p.requested ∧
      (votes.foldl vote p).locked =
        (p.locked || !votes.isEmpty && quorumOf p.height (p.held ++ votes)) := by
  induction votes generalizing p with
  | nil => simp
  | cons v rest ih =>
    have hv : v.getHash ∉ p.known := hfresh v List.mem_cons_self
    rw [List.map_cons, List.nodup_cons] at hnodup
    have hrest : ∀ w ∈ rest, w.getHash ∉ (p.vote v).known := by
      intro w hw hk
      rw [vote, if_neg hv] at hk
      rcases List.mem_cons.mp hk with heq | hk
      · exact hnodup.1 (heq ▸ List.mem_map_of_mem hw)
      · exact hfresh w (List.mem_cons_of_mem _ hw) hk
    obtain ⟨hheld, hheight, hrequested, hlocked⟩ := ih hnodup.2 hrest
    have hvote : p.vote v = { p with
        known := v.getHash :: p.known
        held := p.held ++ [v]
        locked := p.locked || quorumOf p.height (p.held ++ [v]) } := if_neg hv
    rw [List.foldl_cons, hheld, hheight, hrequested, hlocked, hvote]
    refine ⟨by simp, rfl, rfl, ?_⟩
    have happend : p.held ++ [v] ++ rest = p.held ++ v :: rest := by simp
    rw [happend, List.isEmpty_cons, Bool.not_false, Bool.true_and, Bool.or_assoc]
    congr 1
    cases hquorum : quorumOf p.height (p.held ++ [v]) with
    | true => rw [← happend, quorumOf_append rest hquorum, Bool.true_or]
    | false =>
      cases rest with
      | nil => rw [hquorum]; rfl
      | cons w rest => rfl

theorem mem_known {k : Uint256} (h : k ∈ (votes.foldl vote p).known) :
    k ∈ p.known ∨ k ∈ votes.map CConsensusVote.getHash := by
  induction votes generalizing p with
  | nil => exact Or.inl h
  | cons v rest ih =>
    rw [List.map_cons, List.mem_cons]
    rcases ih h with hk | hk
    · rw [vote] at hk
      split at hk
      · exact Or.inl hk
      · rcases List.mem_cons.mp hk with heq | hk
        · exact Or.inr (Or.inl heq)
        · exact Or.inl hk
    · exact Or.inr (Or.inr hk)

end Votes

end Progress

/-! The maps follow it. -/

section Refinement

/-- What the maps hold of a transaction and of the votes on it. -/
structure Shows (tx : CTransaction) (votes : List CConsensusVote) (s : State) (p : Progress) :
    Prop where
  known : ∀ v ∈ votes, s.mapTxLockVote.count v.getHash = true ↔ v.getHash ∈ p.known
  lock : (s.mapTxLocks.find tx.getHash = none ∧ p.held = [] ∧ p.height = 0) ∨
    ∃ l, s.mapTxLocks.find tx.getHash = some l ∧ l.vecConsensusVotes = p.held ∧
      l.nBlockHeight = p.height
  request : s.mapTxLockReq.find tx.getHash = if p.requested then some tx else none
  rejected : s.mapTxLockReqRejected.find tx.getHash = none
  inputs : ∀ o ∈ tx.prevouts, s.mapLockedInputs.find o = if p.locked then some tx.getHash else none
  early : p.requested = false → p.height = 0

/-- Nothing is known of the transaction, its inputs and the votes. -/
structure Unseen (s : State) (tx : CTransaction) (votes : List CConsensusVote) : Prop where
  request : s.mapTxLockReq.find tx.getHash = none
  rejected : s.mapTxLockReqRejected.find tx.getHash = none
  lock : s.mapTxLocks.find tx.getHash = none
  votes : ∀ v ∈ votes, s.mapTxLockVote.count v.getHash = false
  inputs : ∀ o ∈ tx.prevouts, s.mapLockedInputs.find o = none

variable {tx : CTransaction} {votes : List CConsensusVote} {s : State} {p : Progress} {env : Env}

theorem Unseen.shows (h : Unseen s tx votes) : Shows tx votes s .start where
  known := fun v hv => by simp [h.votes v hv, Progress.start]
  lock := Or.inl ⟨h.lock, rfl, rfl⟩
  request := h.request
  rejected := h.rejected
  inputs := h.inputs
  early := fun _ => rfl

theorem Shows.noConflict (h : Shows tx votes s p) : conflictingLock s tx = none := by
  cases hc : conflictingLock s tx with
  | none => rfl
  | some t =>
    obtain ⟨hne, o, ho, hlocked⟩ := conflictingLock_some hc
    rw [h.inputs o ho] at hlocked
    split at hlocked
    · exact absurd (Option.some.inj hlocked).symm hne
    · cases hlocked

theorem countSignatures_iff (l : CTransactionLock) :
    signaturesRequired ≤ l.countSignatures ↔
      quorumOf l.nBlockHeight l.vecConsensusVotes = true := by
  unfold CTransactionLock.countSignatures quorumOf
  split
  · next h => simp [h, signaturesRequired]
  · next h => simp [h]

/-- With its votes complete, a requested transaction without conflict locks its inputs. -/
theorem lockInputs_of_requested (hreq : s.mapTxLockReq.find tx.getHash = some tx)
    (hconf : conflictingLock s tx = none) :
    lockInputs env s tx.getHash = { s with
      nCompleteTXLocks :=
        s.nCompleteTXLocks + if env.updatedTransaction tx.getHash then 1 else 0
      mapLockedInputs := s.mapLockedInputs.insertAll tx.prevouts tx.getHash } := by
  have hinsert : s.mapTxLockReq.insert tx.getHash .null = s.mapTxLockReq :=
    Dict.insert_of_some _ hreq
  have hcount : s.mapTxLockReq.count tx.getHash = true := Dict.count_eq_true.mpr ⟨tx, hreq⟩
  unfold lockInputs
  simp only [hinsert, hreq, Option.getD_some, checkForConflictingLocks_of_none hconf, hcount,
    if_true]

theorem Shows.countedLock (h : Shows tx votes s p) (env : Env) {v : CConsensusVote}
    (htx : v.txHash = tx.getHash) :
    ∃ l, (SwiftTX.countVote env s v).mapTxLocks.find tx.getHash = some l ∧
      l.vecConsensusVotes = p.held ++ [v] ∧ l.nBlockHeight = p.height := by
  refine ⟨_, by rw [SwiftTX.countVote, compileVote_find, htx, if_pos rfl], ?_⟩
  rcases h.lock with ⟨hnone, hheld, hheight⟩ | ⟨l, hsome, hheld, hheight⟩
  · rw [hnone, hheld, hheight]
    exact ⟨rfl, rfl⟩
  · rw [hsome, ← hheld, ← hheight]
    exact ⟨rfl, rfl⟩

/-- A vote with a new key is counted. -/
theorem Shows.countVote (h : Shows tx votes s p) {v : CConsensusVote}
    (htx : v.txHash = tx.getHash) (hnew : v.getHash ∉ p.known) :
    Shows tx votes (settleLock env (SwiftTX.countVote env s v) v.txHash) (p.vote v) := by
  have hvote : p.vote v = { p with
      known := v.getHash :: p.known
      held := p.held ++ [v]
      locked := p.locked || quorumOf p.height (p.held ++ [v]) } := if_neg hnew
  obtain ⟨l, hl, hheld, hheight⟩ := h.countedLock env htx
  have hquorum : hasQuorum (SwiftTX.countVote env s v) tx.getHash =
      quorumOf p.height (p.held ++ [v]) := by
    rw [Bool.eq_iff_iff, hasQuorum_iff, ← hheld, ← hheight, ← countSignatures_iff]
    constructor
    · rintro ⟨l', hl', hcount⟩
      obtain rfl := Option.some.inj (hl.symm.trans hl')
      exact hcount
    · exact fun hcount => ⟨l, hl, hcount⟩
  have hknown : ∀ w ∈ votes, (s.mapTxLockVote.insert v.getHash v).count w.getHash = true ↔
      w.getHash ∈ (p.vote v).known := by
    intro w hw
    rw [hvote, List.mem_cons, ← h.known w hw, Dict.count_eq_true, Dict.count_eq_true,
      Dict.find_insert]
    by_cases hkey : w.getHash = v.getHash
    · simp [hkey]
    · simp [hkey]
  rw [htx, settleLock, hquorum]
  cases hcomplete : quorumOf p.height (p.held ++ [v]) with
  | false =>
    rw [hcomplete, Bool.or_false] at hvote
    rw [if_neg Bool.false_ne_true]
    exact {
      known := hknown
      lock := Or.inr ⟨l, hl, by rw [hvote]; exact hheld, by rw [hvote]; exact hheight⟩
      request := by rw [hvote]; exact h.request
      rejected := h.rejected
      inputs := by rw [hvote]; exact h.inputs
      early := by rw [hvote]; exact h.early }
  | true =>
    rw [hcomplete, Bool.or_true] at hvote
    -- the lock has a height, so the request has come
    have hrequested : p.requested = true := by
      by_contra hno
      exact (of_decide_eq_true hcomplete).1 (h.early (by simpa using hno))
    have hreq : (SwiftTX.countVote env s v).mapTxLockReq.find tx.getHash = some tx := by
      have hreq := h.request
      rw [if_pos hrequested] at hreq
      exact hreq
    have hconf : conflictingLock (SwiftTX.countVote env s v) tx = none :=
      (conflictingLock_congr tx rfl).trans h.noConflict
    rw [if_pos rfl, lockInputs_of_requested hreq hconf]
    exact {
      known := hknown
      lock := Or.inr ⟨l, hl, by rw [hvote]; exact hheld, by rw [hvote]; exact hheight⟩
      request := by rw [hvote, if_pos hrequested]; exact hreq
      rejected := h.rejected
      inputs := fun o ho => by
        rw [hvote, if_pos rfl, Dict.find_insertAll, if_pos ho]
        have hinput : (SwiftTX.countVote env s v).mapLockedInputs.find o =
            if p.locked then some tx.getHash else none := h.inputs o ho
        rw [hinput]
        cases p.locked <;> rfl
      early := fun hno => by
        rw [hvote] at hno
        rw [hrequested] at hno
        cases hno }

/-- The `txlvote` message of a valid vote. -/
theorem Shows.processVote (h : Shows tx votes s p) {v : CConsensusVote} (hv : v ∈ votes)
    (htx : v.txHash = tx.getHash) (hvalid : VoteValid verifyMessage env v) :
    Shows tx votes (processVote verifyMessage env s v) (p.vote v) := by
  by_cases hkey : v.getHash ∈ p.known
  · rw [processVote_of_known ((h.known v hv).mpr hkey), Progress.vote, if_pos hkey]
    exact h
  · have hcount : s.mapTxLockVote.count v.getHash = false := by
      rw [← Bool.not_eq_true]
      exact fun hc => hkey ((h.known v hv).mp hc)
    obtain ⟨U, heq⟩ := processVote_of_valid hcount hvalid
    rw [heq]
    have hcounted : Shows tx votes (settleLock env (SwiftTX.countVote env s v) v.txHash)
        (p.vote v) := h.countVote htx hkey
    exact { hcounted with }

/-- The vote that the node makes itself, as one of the top masternodes. -/
def ownVote (verifyMessage : Bytes → Bytes → String → Bool) (env : Env) (tx : CTransaction)
    (nBlockHeight : ℤ) : Option CConsensusVote :=
  let n := env.getMasternodeRank env.activeMasternode.prevout nBlockHeight minSwiftTxProtoVersion
  if env.fMasterNode = true ∧ n ≠ -1 ∧ n ≤ signaturesTotal then
    (sign verifyMessage env ⟨env.activeMasternode, tx.getHash, nBlockHeight, []⟩).filter
      (signatureValid verifyMessage env)
  else none

theorem doConsensusVote_ownVote (n : ℤ) :
    doConsensusVote verifyMessage env s tx n = { s with
      mapTxLockVote := (ownVote verifyMessage env tx n).elim s.mapTxLockVote fun ctx =>
        s.mapTxLockVote.set ctx.getHash ctx } := by
  unfold doConsensusVote ownVote
  by_cases hmn : env.fMasterNode = true
  · simp only [hmn, Bool.not_true, Bool.false_eq_true, if_false, true_and]
    split
    · next hnone => rw [if_neg fun hc => hc.1 hnone]; rfl
    · next hsome =>
      split
      · next htop => rw [if_neg fun hc => absurd hc.2 (not_le.mpr htop)]; rfl
      · next htop =>
        rw [if_pos ⟨hsome, not_lt.mp htop⟩]
        split
        · next hsign => rw [hsign]; rfl
        · next ctx hsign =>
          rw [hsign, Option.filter_some]
          cases signatureValid verifyMessage env ctx <;> rfl
  · have hoff : (!env.fMasterNode) = true := by simpa using hmn
    rw [if_pos hoff]
    simp only [hmn]
    rfl

/-- A request that the node can check and the mempool takes when nothing stands against it. -/
structure RequestValid (env : Env) (tx : CTransaction) : Prop where
  handled : env.handles = true
  valid : isIXTXValid env tx = true
  scripts : ∀ o ∈ tx.vout,
    Script.isNormalPaymentScript o.scriptPubKey = true ∨ Script.isUnspendable o.scriptPubKey = true
  taken : env.mempoolTakes tx = true
  spends : tx.vin ≠ []

/-- The lock once the request has come. -/
theorem Shows.createNewLock (h : Shows tx votes s p) (hearly : p.requested = false) (env : Env) :
    (createNewLock env s tx).2 = (lockHeight env tx).getD 0 ∧
      (((createNewLock env s tx).1.mapTxLocks.find tx.getHash = none ∧ p.held = [] ∧
          (lockHeight env tx).getD 0 = 0) ∨
        ∃ l, (createNewLock env s tx).1.mapTxLocks.find tx.getHash = some l ∧
          l.vecConsensusVotes = p.held ∧ l.nBlockHeight = (lockHeight env tx).getD 0) := by
  unfold SwiftTX.createNewLock
  cases hheight : lockHeight env tx with
  | none =>
    refine ⟨rfl, ?_⟩
    have hlock := h.lock
    rw [h.early hearly] at hlock
    exact hlock
  | some n =>
    refine ⟨rfl, Or.inr ?_⟩
    rcases h.lock with ⟨hnone, hheld, -⟩ | ⟨l, hsome, hheld, -⟩
    · have hcount : s.mapTxLocks.count tx.getHash = false := Dict.count_eq_false.mpr hnone
      refine ⟨newLock env tx.getHash n, ?_, hheld.symm, rfl⟩
      simp only [hcount, Bool.false_eq_true, if_false]
      rw [Dict.find_insert_of_none _ hnone, if_pos rfl]
    · have hcount : s.mapTxLocks.count tx.getHash = true := Dict.count_eq_true.mpr ⟨l, hsome⟩
      refine ⟨{ l with nBlockHeight := n }, ?_, hheld, rfl⟩
      simp only [hcount, if_true]
      rw [Dict.find_modify, if_pos rfl, hsome]
      rfl

/-- The `ix` message of a valid request. -/
theorem Shows.processRequest (h : Shows tx votes s p) (hearly : p.requested = false)
    (hvalid : RequestValid env tx) :
    Shows tx votes (processRequest verifyMessage env s tx)
      (p.request ((lockHeight env tx).getD 0)
        (ownVote verifyMessage env tx ((lockHeight env tx).getD 0))) := by
  have hreq : s.mapTxLockReq.find tx.getHash = none := by
    rw [h.request, hearly]
    rfl
  have hwell : ixWellFormed env s tx = true := by
    have hscripts : (tx.vout.all fun o => Script.isNormalPaymentScript o.scriptPubKey ||
        Script.isUnspendable o.scriptPubKey) = true :=
      List.all_eq_true.mpr fun o ho => by simpa using hvalid.scripts o ho
    rw [ixWellFormed, Dict.count_eq_false.mpr hreq, Dict.count_eq_false.mpr h.rejected,
      hvalid.valid, hscripts]
    rfl
  obtain ⟨hn, hlock⟩ := h.createNewLock hearly env
  have haccept : acceptToMemoryPool env (SwiftTX.createNewLock env s tx).1 tx = true := by
    have hconf : conflictingLock (SwiftTX.createNewLock env s tx).1 tx = none := by
      rw [createNewLock_eq]
      exact (conflictingLock_congr tx rfl).trans h.noConflict
    rw [acceptToMemoryPool, hconf, hvalid.taken]
    rfl
  generalize hown : ownVote verifyMessage env tx ((lockHeight env tx).getD 0) = own
  have hdef : SwiftTX.processRequest verifyMessage env s tx = {
      (SwiftTX.createNewLock env s tx).1 with
      mapTxLockVote := own.elim s.mapTxLockVote fun ctx => s.mapTxLockVote.set ctx.getHash ctx
      mapTxLockReq := s.mapTxLockReq.insert tx.getHash tx } := by
    unfold SwiftTX.processRequest
    rw [hwell]
    simp only [haccept, Bool.not_true, Bool.false_eq_true, if_false, if_true, hn,
      doConsensusVote_ownVote, hown]
    rw [createNewLock_eq]
  rw [hdef]
  exact {
    known := fun w hw => by
      have hknown := h.known w hw
      rw [Progress.request, List.mem_append, ← hknown]
      cases own with
      | none => simp
      | some ctx =>
        simp only [Option.elim_some, Option.map_some, Option.toList_some, List.mem_singleton,
          Dict.count_eq_true, Dict.find_set]
        by_cases hkey : w.getHash = ctx.getHash
        · simp [hkey]
        · simp [hkey]
    lock := hlock
    request := by
      rw [Dict.find_insert_of_none _ hreq, if_pos rfl]
      rfl
    rejected := by
      rw [createNewLock_eq]
      exact h.rejected
    inputs := by
      rw [createNewLock_eq]
      exact h.inputs
    early := fun hno => absurd hno.symm Bool.false_ne_true }

end Refinement

/-! The whole run. -/

section Run

variable (verifyMessage) in
/-- The node after valid votes, the request, and valid votes again. -/
def afterAll (s : State) (before after : List (Env × CConsensusVote)) (env : Env)
    (tx : CTransaction) : State :=
  run (step verifyMessage) s (before.map (fun e => (e.1, .txlvote e.2)) ++
    (env, .ix tx) :: after.map fun e => (e.1, .txlvote e.2))

/-- The mempool has the transaction, its inputs are locked for it, and its lock holds the votes. -/
structure Completed (s : State) (tx : CTransaction) (votes : List CConsensusVote) : Prop where
  accepted : s.mapTxLockReq.find tx.getHash = some tx ∧
    s.mapTxLockReqRejected.find tx.getHash = none
  locked : ∀ o ∈ tx.prevouts, s.mapLockedInputs.find o = some tx.getHash
  holds : ∃ l, s.mapTxLocks.find tx.getHash = some l ∧ ∀ v ∈ votes, v ∈ l.vecConsensusVotes

/-- The votes of a run, each in the environment in which it arrives. -/
def VotesValid (verifyMessage : Bytes → Bytes → String → Bool) (tx : CTransaction)
    (arrivals : List (Env × CConsensusVote)) : Prop :=
  ∀ e ∈ arrivals, e.1.handles = true ∧ e.2.txHash = tx.getHash ∧ VoteValid verifyMessage e.1 e.2

variable {tx : CTransaction} {votes : List CConsensusVote} {s : State} {p : Progress} {env : Env}

theorem Shows.arrivals (h : Shows tx votes s p) {arrived : List (Env × CConsensusVote)}
    (hvalid : VotesValid verifyMessage tx arrived) (hmem : ∀ e ∈ arrived, e.2 ∈ votes) :
    Shows tx votes
      (run (step verifyMessage) s (arrived.map fun e => (e.1, Event.txlvote e.2)))
      ((arrived.map Prod.snd).foldl Progress.vote p) := by
  induction arrived generalizing s p with
  | nil => exact h
  | cons e rest ih =>
    obtain ⟨hhandles, htx, hvote⟩ := hvalid e List.mem_cons_self
    have hstep : step verifyMessage s (e.1, .txlvote e.2) =
        SwiftTX.processVote verifyMessage e.1 s e.2 := if_pos hhandles
    rw [List.map_cons, run_cons, hstep]
    exact ih (h.processVote (hmem e List.mem_cons_self) htx hvote)
      (fun e' he' => hvalid e' (List.mem_cons_of_mem _ he'))
      fun e' he' => hmem e' (List.mem_cons_of_mem _ he')

/-- The progress of the run. -/
def progressOf (before after : List CConsensusVote) (n : ℤ) (own : Option CConsensusVote) :
    Progress :=
  after.foldl Progress.vote ((before.foldl Progress.vote .start).request n own)

theorem requested_foldl (votes : List CConsensusVote) (p : Progress) :
    (votes.foldl Progress.vote p).requested = p.requested := by
  induction votes generalizing p with
  | nil => rfl
  | cons v rest ih =>
    rw [List.foldl_cons, ih, Progress.vote]
    split <;> rfl

theorem shows_afterAll {before after : List (Env × CConsensusVote)}
    (hunseen : Unseen s tx ((before ++ after).map Prod.snd)) (hrequest : RequestValid env tx)
    (hvotes : VotesValid verifyMessage tx (before ++ after)) :
    Shows tx ((before ++ after).map Prod.snd) (afterAll verifyMessage s before after env tx)
      (progressOf (before.map Prod.snd) (after.map Prod.snd) ((lockHeight env tx).getD 0)
        (ownVote verifyMessage env tx ((lockHeight env tx).getD 0))) := by
  have hbefore := hunseen.shows.arrivals
    (fun e he => hvotes e (List.mem_append_left after he))
    fun e he => List.mem_map_of_mem (List.mem_append_left after he)
  have hstep (s : State) : step verifyMessage s (env, .ix tx) =
      processRequest verifyMessage env s tx := if_pos hrequest.handled
  have hix : Shows tx _ (SwiftTX.processRequest verifyMessage env _ tx) _ :=
    hbefore.processRequest (requested_foldl _ _) hrequest
  rw [afterAll, run_append, run_cons, hstep]
  exact hix.arrivals (fun e he => hvotes e (List.mem_append_right before he))
    fun e he => List.mem_map_of_mem (List.mem_append_right before he)

/-- The votes have different keys and come, with a last one after the request, to six that name
the height of the lock; no vote after the request is one that the node made itself. -/
structure InTime (verifyMessage : Bytes → Bytes → String → Bool) (env : Env) (tx : CTransaction)
    (before after : List CConsensusVote) : Prop where
  keys : ((before ++ after).map CConsensusVote.getHash).Nodup
  notOwn : ∀ own, ownVote verifyMessage env tx ((lockHeight env tx).getD 0) = some own →
    ∀ v ∈ after, v.getHash ≠ own.getHash
  late : after ≠ []
  quorum : ∃ n, lockHeight env tx = some n ∧ n ≠ 0 ∧
    signaturesRequired ≤ (before ++ after).countP fun v => v.nBlockHeight = n

theorem progressOf_fresh {before after : List CConsensusVote} {own : Option CConsensusVote} (n : ℤ)
    (hkeys : ((before ++ after).map CConsensusVote.getHash).Nodup)
    (hown : ∀ o, own = some o → ∀ v ∈ after, v.getHash ≠ o.getHash) :
    (progressOf before after n own).held = before ++ after ∧
      (progressOf before after n own).locked =
        (!after.isEmpty && quorumOf n (before ++ after)) := by
  rw [List.map_append, List.nodup_append] at hkeys
  obtain ⟨hbefore, hafter, hapart⟩ := hkeys
  obtain ⟨hheld, -, -, hlocked⟩ := @Progress.foldl_fresh .start before hbefore
    fun v _ hk => nomatch hk
  have hfresh : ∀ v ∈ after,
      v.getHash ∉ ((before.foldl Progress.vote .start).request n own).known := by
    intro v hv hk
    rcases List.mem_append.mp hk with hk | hk
    · cases own with
      | none => cases hk
      | some o => exact hown o rfl v hv (List.mem_singleton.mp hk)
    · rcases Progress.mem_known hk with hk | hk
      · cases hk
      · exact hapart _ hk _ (List.mem_map_of_mem hv) rfl
  obtain ⟨hheld', -, -, hlocked'⟩ := Progress.foldl_fresh hafter hfresh
  have hzero : quorumOf 0 before = false := decide_eq_false fun h => h.1 rfl
  have hunlocked : ((before.foldl Progress.vote .start).request n own).locked = false := by
    change (before.foldl Progress.vote .start).locked = false
    rw [hlocked]
    change (false || !before.isEmpty && quorumOf 0 before) = false
    rw [hzero, Bool.and_false, Bool.or_false]
  have hstart : ((before.foldl Progress.vote .start).request n own).held = before := hheld
  rw [progressOf, hheld', hlocked', hunlocked, hstart, Bool.false_or]
  exact ⟨rfl, rfl⟩

theorem distinct_progressOf (before after : List CConsensusVote) (n : ℤ)
    (own : Option CConsensusVote) : (progressOf before after n own).Distinct := by
  have hstart : Progress.start.Distinct := ⟨List.nodup_nil, fun _ hv => nomatch hv⟩
  have hbefore : (before.foldl Progress.vote .start).Distinct := hstart.foldl
  have hrequest : ((before.foldl Progress.vote .start).request n own).Distinct :=
    ⟨hbefore.1, fun v hv => List.mem_append_right _ (hbefore.2 v hv)⟩
  exact hrequest.foldl

/-- All votes are held and the inputs are locked, if and only if the votes are in time. -/
theorem progressOf_complete_iff {before after : List CConsensusVote}
    (hset : (before ++ after).Nodup) :
    ((∀ v ∈ before ++ after, v ∈ (progressOf before after ((lockHeight env tx).getD 0)
          (ownVote verifyMessage env tx ((lockHeight env tx).getD 0))).held) ∧
      (progressOf before after ((lockHeight env tx).getD 0)
        (ownVote verifyMessage env tx ((lockHeight env tx).getD 0))).locked = true) ↔
    InTime verifyMessage env tx before after := by
  generalize hn : (lockHeight env tx).getD 0 = n
  have hquorum : quorumOf n (before ++ after) = true ↔ ∃ n, lockHeight env tx = some n ∧ n ≠ 0 ∧
      signaturesRequired ≤ (before ++ after).countP fun v => v.nBlockHeight = n := by
    rw [quorumOf, decide_eq_true_eq, ← hn]
    cases lockHeight env tx with
    | none => simp
    | some H => simp
  constructor
  · rintro ⟨hall, hlocked⟩
    have hkeys : ((before ++ after).map CConsensusVote.getHash).Nodup := by
      refine hset.map_on fun v hv w hw heq => ?_
      exact List.inj_on_of_nodup_map (distinct_progressOf _ _ _ _).1 (hall v hv) (hall w hw) heq
    have hown : ∀ own, ownVote verifyMessage env tx n = some own →
        ∀ v ∈ after, v.getHash ≠ own.getHash := by
      intro own hown v hv heq
      rcases Progress.mem_held (hall v (List.mem_append_right _ hv)) with hheld | ⟨-, hkey⟩
      · rcases Progress.mem_held (p := .start) hheld with hstart | ⟨hbefore, -⟩
        · cases hstart
        · exact (List.nodup_append.mp hset).2.2 v hbefore v hv rfl
      · refine hkey (List.mem_append_left _ ?_)
        rw [hown, heq]
        exact List.mem_singleton_self _
    obtain ⟨-, hlocks⟩ := progressOf_fresh n hkeys hown
    rw [hlocks, Bool.and_eq_true] at hlocked
    exact ⟨hkeys, by rwa [hn], by simpa using hlocked.1, hquorum.mp hlocked.2⟩
  · intro h
    have hown := h.notOwn
    rw [hn] at hown
    obtain ⟨hheld, hlocks⟩ := progressOf_fresh n h.keys hown
    rw [hheld, hlocks, hquorum.mpr h.quorum]
    exact ⟨fun v hv => hv, by simpa using h.late⟩

/-- After a request and votes on it, in whatever order they came, the transaction is accepted,
its inputs are locked, and its lock holds the votes, if and only if the votes are in time. -/
theorem order_independent_iff (s : State) (tx : CTransaction)
    (before after : List (Env × CConsensusVote)) (env : Env)
    (hunseen : Unseen s tx ((before ++ after).map Prod.snd)) (hrequest : RequestValid env tx)
    (hvotes : VotesValid verifyMessage tx (before ++ after))
    (hset : ((before ++ after).map Prod.snd).Nodup) :
    Completed (afterAll verifyMessage s before after env tx) tx
        ((before ++ after).map Prod.snd) ↔
      InTime verifyMessage env tx (before.map Prod.snd) (after.map Prod.snd) := by
  have hshows := shows_afterAll hunseen hrequest hvotes
  rw [List.map_append] at hset
  have hiff := @progressOf_complete_iff verifyMessage tx env _ _ hset
  have hrequested : (progressOf (before.map Prod.snd) (after.map Prod.snd)
      ((lockHeight env tx).getD 0)
      (ownVote verifyMessage env tx ((lockHeight env tx).getD 0))).requested = true := by
    rw [progressOf, requested_foldl]
    rfl
  rw [← List.map_append] at hiff
  generalize progressOf (before.map Prod.snd) (after.map Prod.snd) ((lockHeight env tx).getD 0)
    (ownVote verifyMessage env tx ((lockHeight env tx).getD 0)) = p at hshows hiff hrequested
  constructor
  · intro h
    refine hiff.mp ⟨fun v hv => ?_, ?_⟩
    · obtain ⟨l, hl, hholds⟩ := h.holds
      rcases hshows.lock with ⟨hnone, -⟩ | ⟨l', hl', hheld, -⟩
      · rw [hl] at hnone
        cases hnone
      · obtain rfl := Option.some.inj (hl.symm.trans hl')
        exact hheld ▸ hholds v hv
    · obtain ⟨i, hi⟩ := List.exists_mem_of_ne_nil _ hrequest.spends
      have hinput := hshows.inputs i.prevout (List.mem_map_of_mem hi)
      rw [h.locked _ (List.mem_map_of_mem hi)] at hinput
      by_contra hno
      rw [if_neg hno] at hinput
      cases hinput
  · intro h
    obtain ⟨hheld, hlocked⟩ := hiff.mpr h
    refine ⟨⟨?_, hshows.rejected⟩, fun o ho => ?_, ?_⟩
    · rw [hshows.request, if_pos hrequested]
    · rw [hshows.inputs o ho, if_pos hlocked]
    · rcases hshows.lock with ⟨-, hnone, -⟩ | ⟨l, hl, hvotes, -⟩
      · obtain ⟨e, he⟩ := List.exists_mem_of_ne_nil _ h.late
        have hv := hheld e (by rw [List.map_append]; exact List.mem_append_right _ he)
        rw [hnone] at hv
        cases hv
      · exact ⟨l, hl, fun v hv => hvotes ▸ hheld v hv⟩

end Run

/-! Six masternodes vote for the transaction. -/

section Samples

def sixVotes : List (Env × CConsensusVote) :=
  (List.range 6).map fun n => (sampleNode, sampleVote (BitVec.ofNat 32 n) 1)

theorem sixVotes_valid : Unseen State.init (spend 1) (sixVotes.map Prod.snd) ∧
    RequestValid sampleNode (spend 1) ∧ VotesValid sampleVerify (spend 1) sixVotes := by
  refine ⟨⟨rfl, rfl, rfl, by decide, by decide⟩, ⟨by decide, by decide, by decide, rfl, by decide⟩,
    ?_⟩
  intro e he
  obtain ⟨n, -, rfl⟩ := List.mem_map.mp he
  have hhandles : sampleNode.handles = true := by decide
  have hrank : (1 : ℤ) ≠ -1 ∧ (1 : ℤ) ≤ signaturesTotal := by decide
  exact ⟨hhandles, rfl, hrank.1, hrank.2, rfl⟩

/-- The votes come first, then the request: nothing is locked. -/
theorem request_last_unlocked :
    Unseen State.init (spend 1) (sixVotes.map Prod.snd) ∧ RequestValid sampleNode (spend 1) ∧
      VotesValid sampleVerify (spend 1) sixVotes ∧ (sixVotes.map Prod.snd).Nodup ∧
      ¬Completed (afterAll sampleVerify State.init sixVotes [] sampleNode (spend 1)) (spend 1)
        (sixVotes.map Prod.snd) := by
  obtain ⟨hunseen, hrequest, hvotes⟩ := sixVotes_valid
  refine ⟨hunseen, hrequest, hvotes, by decide, fun h => ?_⟩
  have hfree : (afterAll sampleVerify State.init sixVotes [] sampleNode
      (spend 1)).mapLockedInputs.find sampleCoin = none := by
    decide
  rw [h.locked sampleCoin (by decide)] at hfree
  cases hfree

/-- With one vote after the request all is as it should be. -/
theorem order_independent_sample :
    Completed (afterAll sampleVerify State.init (sixVotes.take 5) (sixVotes.drop 5) sampleNode
      (spend 1)) (spend 1) ((sixVotes.take 5 ++ sixVotes.drop 5).map Prod.snd) := by
  obtain ⟨hunseen, hrequest, hvotes⟩ := sixVotes_valid
  have hsplit := List.take_append_drop 5 sixVotes
  refine (order_independent_iff State.init (spend 1) _ _ sampleNode (hsplit.symm ▸ hunseen)
    hrequest (hsplit.symm ▸ hvotes) (by decide)).mpr ⟨by decide, ?_, by decide, ?_⟩
  · intro own hown
    have hnone : ownVote sampleVerify sampleNode (spend 1)
        ((lockHeight sampleNode (spend 1)).getD 0) = none := by decide
    rw [hnone] at hown
    cases hown
  · exact ⟨903, by decide, by decide, by decide⟩

end Samples

end Scrypta.SwiftTX
