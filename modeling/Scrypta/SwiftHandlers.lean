import Scrypta.SwiftTX

/-! What each SwiftTX handler does to the maps, stated once. A handler other than the
cleanup keeps requests, locks and locked inputs; `NewlyLocked` names the two branches
that add to the locked inputs. -/

namespace Scrypta.SwiftTX

variable {verifyMessage : Bytes → Bytes → String → Bool}

/-- Locks whose votes and ids are those of `old`, but for new locks without votes. -/
def SameVotes (old new : Dict Uint256 CTransactionLock) : Prop :=
  ∀ t l', new.find t = some l' →
    (∃ l, old.find t = some l ∧ l'.txHash = l.txHash ∧
      l'.vecConsensusVotes = l.vecConsensusVotes) ∨ (l'.txHash = t ∧ l'.vecConsensusVotes = [])

theorem SameVotes.refl (m : Dict Uint256 CTransactionLock) : SameVotes m m :=
  fun _ l h => Or.inl ⟨l, h, rfl, rfl⟩

theorem SameVotes.trans {a b c : Dict Uint256 CTransactionLock}
    (hab : SameVotes a b) (hbc : SameVotes b c) : SameVotes a c := by
  intro t l'' h
  rcases hbc t l'' h with ⟨l', hl', hid, hv⟩ | hnew
  · rcases hab t l' hl' with ⟨l, hl, hid', hv'⟩ | ⟨hid', hv'⟩
    · exact Or.inl ⟨l, hl, hid.trans hid', hv.trans hv'⟩
    · exact Or.inr ⟨hid.trans hid', hv.trans hv'⟩
  · exact Or.inr hnew

/-- Locks changed in their expiry only. -/
def SameButExpiry (old new : Dict Uint256 CTransactionLock) : Prop :=
  ∀ t, new.find t = old.find t ∨
    ∃ l e, old.find t = some l ∧ new.find t = some { l with nExpiration := e }

theorem SameButExpiry.sameVotes {old new : Dict Uint256 CTransactionLock}
    (h : SameButExpiry old new) : SameVotes old new := by
  intro t l' hl'
  rcases h t with heq | ⟨l, e, hl, hnew⟩
  · exact Or.inl ⟨l', heq ▸ hl', rfl, rfl⟩
  · rw [hnew] at hl'
    obtain rfl := Option.some.inj hl'
    exact Or.inl ⟨l, hl, rfl, rfl⟩

theorem SameButExpiry.isSome {old new : Dict Uint256 CTransactionLock}
    (h : SameButExpiry old new) {t : Uint256} {l : CTransactionLock}
    (hl : old.find t = some l) : ∃ l', new.find t = some l' := by
  rcases h t with heq | ⟨l', e, _, hnew⟩
  · exact ⟨l, heq.trans hl⟩
  · exact ⟨_, hnew⟩

theorem sameButExpiry_modify {old new : Dict Uint256 CTransactionLock} {t : Uint256}
    (env : Env) (h : SameButExpiry old new) : SameButExpiry old (new.modify t (expire env)) := by
  intro k
  rw [Dict.find_modify]
  by_cases hk : k = t
  · subst hk
    rw [if_pos rfl]
    rcases h k with heq | ⟨l, e, hl, hnew⟩
    · rw [heq]
      cases hl : old.find k with
      | none => exact Or.inl rfl
      | some l => exact Or.inr ⟨l, _, rfl, rfl⟩
    · rw [hnew]
      exact Or.inr ⟨l, _, hl, rfl⟩
  · rw [if_neg hk]
    exact h k

theorem hasQuorum_iff {s : State} {t : Uint256} : hasQuorum s t = true ↔
    ∃ l, s.mapTxLocks.find t = some l ∧ signaturesRequired ≤ l.countSignatures := by
  unfold hasQuorum
  cases s.mapTxLocks.find t with
  | none => simp
  | some l => simp

theorem hasQuorum_congr {s s' : State} {t : Uint256}
    (h : s'.mapTxLocks.find t = s.mapTxLocks.find t) : hasQuorum s' t = hasQuorum s t := by
  simp only [hasQuorum, h]

theorem SameButExpiry.hasQuorum {s s' : State}
    (h : SameButExpiry s.mapTxLocks s'.mapTxLocks) (t : Uint256) :
    hasQuorum s' t = hasQuorum s t := by
  rcases h t with heq | ⟨l, e, hl, hnew⟩
  · exact hasQuorum_congr heq
  · simp only [SwiftTX.hasQuorum, hl, hnew]
    rfl

theorem createNewLock_eq (env : Env) (s : State) (tx : CTransaction) :
    (createNewLock env s tx).1 =
      { s with mapTxLocks := (createNewLock env s tx).1.mapTxLocks } := by
  unfold createNewLock
  cases lockHeight env tx <;> rfl

theorem createNewLock_find_ne (env : Env) (s : State) (tx : CTransaction) {t : Uint256}
    (h : t ≠ tx.getHash) :
    (createNewLock env s tx).1.mapTxLocks.find t = s.mapTxLocks.find t := by
  unfold createNewLock
  cases lockHeight env tx with
  | none => rfl
  | some n =>
    simp only
    split
    · rw [Dict.find_modify, if_neg h]
    · exact Dict.find_insert_ne _ h

theorem createNewLock_sameVotes (env : Env) (s : State) (tx : CTransaction) :
    SameVotes s.mapTxLocks (createNewLock env s tx).1.mapTxLocks := by
  intro t l' hl'
  by_cases ht : t = tx.getHash
  · subst ht
    unfold createNewLock at hl'
    cases hh : lockHeight env tx with
    | none => rw [hh] at hl'; exact Or.inl ⟨l', hl', rfl, rfl⟩
    | some n =>
      rw [hh] at hl'
      simp only at hl'
      split at hl'
      · rw [Dict.find_modify, if_pos rfl] at hl'
        obtain ⟨l, hl, rfl⟩ := Option.map_eq_some_iff.mp hl'
        exact Or.inl ⟨l, hl, rfl, rfl⟩
      · next hc =>
        have hn := Dict.count_eq_false.mp (by simpa using hc)
        rw [Dict.find_insert_of_none _ hn, if_pos rfl] at hl'
        obtain rfl := Option.some.inj hl'
        exact Or.inr ⟨rfl, rfl⟩
  · rw [createNewLock_find_ne env s tx ht] at hl'
    exact Or.inl ⟨l', hl', rfl, rfl⟩

theorem createNewLock_keeps (env : Env) (s : State) (tx : CTransaction) {t : Uint256}
    {l : CTransactionLock} (hl : s.mapTxLocks.find t = some l) :
    ∃ l', (createNewLock env s tx).1.mapTxLocks.find t = some l' := by
  unfold createNewLock
  cases lockHeight env tx with
  | none => exact ⟨l, hl⟩
  | some n =>
    simp only
    split
    · rw [Dict.find_modify, hl]
      split
      · next ht => rw [← ht, hl]; exact ⟨_, rfl⟩
      · exact ⟨l, rfl⟩
    · exact ⟨l, Dict.find_insert_of_some _ hl⟩

theorem conflictingLock_congr {s s' : State} (tx : CTransaction)
    (h : s'.mapLockedInputs = s.mapLockedInputs) :
    conflictingLock s' tx = conflictingLock s tx := by
  simp only [conflictingLock, h]

theorem conflictingLock_some {s : State} {tx : CTransaction} {t : Uint256}
    (h : conflictingLock s tx = some t) :
    t ≠ tx.getHash ∧ ∃ o ∈ tx.prevouts, s.mapLockedInputs.find o = some t := by
  obtain ⟨i, hi, ht⟩ := List.exists_of_findSome?_eq_some h
  cases ho : s.mapLockedInputs.find i.prevout with
  | none => simp [ho] at ht
  | some t' =>
    simp only [ho] at ht
    split at ht
    · next hne =>
      obtain rfl := Option.some.inj ht
      exact ⟨hne, i.prevout, List.mem_map_of_mem hi, ho⟩
    · cases ht

theorem conflictingLock_none {s : State} {tx : CTransaction}
    (h : conflictingLock s tx = none) {o : COutPoint} (ho : o ∈ tx.prevouts) {t : Uint256}
    (ht : s.mapLockedInputs.find o = some t) : t = tx.getHash := by
  obtain ⟨i, hi, rfl⟩ := List.mem_map.mp ho
  have hnone := (List.findSome?_eq_none_iff.mp h) i hi
  simp only [ht] at hnone
  split at hnone
  · cases hnone
  · next hne => exact not_not.mp hne

/-- The entries that a transaction makes for itself are no conflict. -/
theorem conflictingLock_insertAll (s : State) (tx : CTransaction) (ks : List COutPoint) :
    conflictingLock { s with
      mapLockedInputs := s.mapLockedInputs.insertAll ks tx.getHash } tx =
      conflictingLock s tx := by
  unfold conflictingLock
  congr 1
  funext i
  simp only [Dict.find_insertAll]
  cases s.mapLockedInputs.find i.prevout with
  | none =>
    split
    · next t heq =>
      split at heq
      · obtain rfl := Option.some.inj heq
        simp
      · cases heq
    · rfl
  | some t =>
    split
    · next t' heq =>
      split at heq
      · obtain rfl := Option.some.inj heq
        rfl
      · obtain rfl := Option.some.inj heq
        rfl
    · next heq => split at heq <;> cases heq

theorem checkForConflictingLocks_of_none {env : Env} {s : State} {tx : CTransaction}
    (h : conflictingLock s tx = none) : checkForConflictingLocks env s tx = (s, false) := by
  simp only [checkForConflictingLocks, h]

theorem checkForConflictingLocks_of_some (env : Env) {s : State} {tx : CTransaction}
    {t : Uint256} (h : conflictingLock s tx = some t) :
    ∃ L, SameButExpiry s.mapTxLocks L ∧
      checkForConflictingLocks env s tx = ({ s with mapTxLocks := L }, true) := by
  have hrefl : SameButExpiry s.mapTxLocks s.mapTxLocks := fun _ => Or.inl rfl
  refine ⟨(s.mapTxLocks.modify tx.getHash (expire env)).modify t (expire env),
    sameButExpiry_modify env (sameButExpiry_modify env hrefl), ?_⟩
  simp only [checkForConflictingLocks, h]

theorem SameButExpiry.refl (m : Dict Uint256 CTransactionLock) : SameButExpiry m m :=
  fun _ => Or.inl rfl

variable (verifyMessage) in
theorem doConsensusVote_eq (env : Env) (s : State) (tx : CTransaction) (n : ℤ) :
    ∃ V, (∀ k v, s.mapTxLockVote.find k = some v → ∃ v', V.find k = some v') ∧
      doConsensusVote verifyMessage env s tx n = { s with mapTxLockVote := V } := by
  have hkeep : ∃ V, (∀ k v, s.mapTxLockVote.find k = some v → ∃ v', V.find k = some v') ∧
      s = { s with mapTxLockVote := V } := ⟨s.mapTxLockVote, fun _ v h => ⟨v, h⟩, rfl⟩
  unfold doConsensusVote
  split
  · exact hkeep
  · simp only
    split
    · exact hkeep
    · split
      · exact hkeep
      · split
        · exact hkeep
        · next ctx _ =>
          split
          · exact hkeep
          · refine ⟨s.mapTxLockVote.set ctx.getHash ctx, ?_, rfl⟩
            intro k v hv
            rw [Dict.find_set]
            split
            · exact ⟨ctx, rfl⟩
            · exact ⟨v, hv⟩

theorem rejectRequest_eq (env : Env) (s : State) (tx : CTransaction) :
    ∃ R L, SameButExpiry s.mapTxLocks L ∧
      ((hasQuorum s tx.getHash = true ∧ conflictingLock s tx = none ∧
          R = s.mapTxLockReq.insert tx.getHash tx) ∨
        (¬(hasQuorum s tx.getHash = true ∧ conflictingLock s tx = none) ∧
          R = s.mapTxLockReq)) ∧
      rejectRequest env s tx = { s with
        mapTxLockReqRejected := s.mapTxLockReqRejected.insert tx.getHash tx
        mapLockedInputs := s.mapLockedInputs.insertAll tx.prevouts tx.getHash
        mapTxLocks := L
        mapTxLockReq := R } := by
  let s₁ : State := { s with
    mapTxLockReqRejected := s.mapTxLockReqRejected.insert tx.getHash tx
    mapLockedInputs := s.mapLockedInputs.insertAll tx.prevouts tx.getHash }
  have hconf : conflictingLock s₁ tx = conflictingLock s tx :=
    conflictingLock_insertAll s tx tx.prevouts
  have hq : hasQuorum s₁ tx.getHash = hasQuorum s tx.getHash := rfl
  change ∃ R L, _ ∧ _ ∧ (if hasQuorum s₁ tx.getHash = true then _ else s₁) = _
  by_cases hquorum : hasQuorum s tx.getHash = true
  · rw [if_pos (hq.trans hquorum)]
    cases hc : conflictingLock s tx with
    | none =>
      refine ⟨_, s.mapTxLocks, .refl _, Or.inl ⟨hquorum, rfl, rfl⟩, ?_⟩
      rw [checkForConflictingLocks_of_none (hconf.trans hc)]
    | some t =>
      obtain ⟨L, hL, heq⟩ := checkForConflictingLocks_of_some env (hconf.trans hc)
      refine ⟨s.mapTxLockReq, L, hL, Or.inr ⟨by simp, rfl⟩, ?_⟩
      rw [heq]
  · rw [if_neg (by rwa [hq])]
    exact ⟨s.mapTxLockReq, s.mapTxLocks, .refl _, Or.inr ⟨fun h => hquorum h.1, rfl⟩, rfl⟩

theorem lockInputs_eq (env : Env) (s : State) (txHash : Uint256) :
    ∃ L I n, SameButExpiry s.mapTxLocks L ∧
      (I = s.mapLockedInputs ∨
        (conflictingLock s ((s.mapTxLockReq.find txHash).getD .null) = none ∧
          I = s.mapLockedInputs.insertAll
            ((s.mapTxLockReq.find txHash).getD .null).prevouts txHash)) ∧
      lockInputs env s txHash = { s with
        mapTxLockReq := s.mapTxLockReq.insert txHash .null
        mapTxLocks := L
        mapLockedInputs := I
        nCompleteTXLocks := n } := by
  let s₁ : State := { s with mapTxLockReq := s.mapTxLockReq.insert txHash .null }
  have hfind : s₁.mapTxLockReq.find txHash = some ((s.mapTxLockReq.find txHash).getD .null) := by
    simp [s₁, Dict.find_insert]
  generalize htx : (s.mapTxLockReq.find txHash).getD CTransaction.null = tx at hfind
  have hconf : conflictingLock s₁ tx = conflictingLock s tx := conflictingLock_congr tx rfl
  have hcount : (s.mapTxLockReq.insert txHash .null).count txHash = true :=
    Dict.count_eq_true.mpr ⟨_, hfind⟩
  have hget : ((s.mapTxLockReq.insert txHash .null).find txHash).getD CTransaction.null = tx := by
    rw [hfind]
    rfl
  unfold lockInputs
  simp only [hget]
  cases hc : conflictingLock s tx with
  | none =>
    refine ⟨s.mapTxLocks, s.mapLockedInputs.insertAll tx.prevouts txHash,
      s.nCompleteTXLocks + if env.updatedTransaction txHash then 1 else 0, .refl _,
      Or.inr ⟨rfl, rfl⟩, ?_⟩
    have hcheck : checkForConflictingLocks env s₁ tx = _ :=
      checkForConflictingLocks_of_none (hconf.trans hc)
    simp only [s₁] at hcheck
    rw [hcheck]
    simp only [hcount, if_true]
  | some t =>
    obtain ⟨L, hL, heq⟩ := checkForConflictingLocks_of_some env (hconf.trans hc)
    refine ⟨L, s.mapLockedInputs, s.nCompleteTXLocks, hL, Or.inl rfl, ?_⟩
    simp only [s₁] at heq
    rw [heq]

/-- The vote passes the tests of `ProcessConsensusVote`. -/
def VoteValid (verifyMessage : Bytes → Bytes → String → Bool) (env : Env)
    (ctx : CConsensusVote) : Prop :=
  let n := env.getMasternodeRank ctx.vinMasternode.prevout ctx.nBlockHeight
    minSwiftTxProtoVersion
  n ≠ -1 ∧ n ≤ signaturesTotal ∧ signatureValid verifyMessage env ctx = true

instance (env : Env) (ctx : CConsensusVote) : Decidable (VoteValid verifyMessage env ctx) :=
  inferInstanceAs (Decidable (_ ∧ _))

theorem processConsensusVote_of_valid {env : Env} {s : State} {ctx : CConsensusVote}
    (h : VoteValid verifyMessage env ctx) :
    processConsensusVote verifyMessage env s ctx =
      (settleLock env (compileVote env s ctx) ctx.txHash, true) := by
  obtain ⟨hn, hr, hs⟩ := h
  simp only [processConsensusVote, if_neg hn, if_neg (Int.not_lt.mpr hr), hs]
  rfl

theorem processConsensusVote_of_not_valid {env : Env} {s : State} {ctx : CConsensusVote}
    (h : ¬VoteValid verifyMessage env ctx) :
    processConsensusVote verifyMessage env s ctx = (s, false) := by
  unfold processConsensusVote
  simp only
  split
  · rfl
  · next hn =>
    split
    · rfl
    · next hr =>
      split
      · rfl
      · next hs => exact absurd ⟨hn, Int.not_lt.mp hr, by simpa using hs⟩ h

theorem processVote_of_known {env : Env} {s : State} {ctx : CConsensusVote}
    (h : s.mapTxLockVote.count ctx.getHash = true) :
    processVote verifyMessage env s ctx = s := by
  simp only [processVote, h, if_true]

theorem processVote_of_not_valid {env : Env} {s : State} {ctx : CConsensusVote}
    (hk : s.mapTxLockVote.count ctx.getHash = false) (h : ¬VoteValid verifyMessage env ctx) :
    processVote verifyMessage env s ctx =
      { s with mapTxLockVote := s.mapTxLockVote.insert ctx.getHash ctx } := by
  simp only [processVote, hk, processConsensusVote_of_not_valid h]
  rfl

/-- The state of the maps once a valid vote is counted, before the inputs are locked. -/
def countVote (env : Env) (s : State) (ctx : CConsensusVote) : State :=
  compileVote env { s with mapTxLockVote := s.mapTxLockVote.insert ctx.getHash ctx } ctx

theorem processVote_of_valid {env : Env} {s : State} {ctx : CConsensusVote}
    (hk : s.mapTxLockVote.count ctx.getHash = false) (h : VoteValid verifyMessage env ctx) :
    ∃ U, processVote verifyMessage env s ctx =
      { settleLock env (countVote env s ctx) ctx.txHash with mapUnknownVotes := U } := by
  have hdef : processVote verifyMessage env s ctx =
      let c := settleLock env (countVote env s ctx) ctx.txHash
      if !c.mapTxLockReq.count ctx.txHash && !c.mapTxLockReqRejected.count ctx.txHash then
        { c with mapUnknownVotes :=
            noteUnknownVote env c.mapUnknownVotes ctx.vinMasternode.prevout.hash }
      else c := by
    simp only [processVote, hk, processConsensusVote_of_valid h]
    rfl
  rw [hdef]
  simp only
  split
  · exact ⟨_, rfl⟩
  · exact ⟨_, rfl⟩

theorem compileVote_find (env : Env) (s : State) (ctx : CConsensusVote) (t : Uint256) :
    (compileVote env s ctx).mapTxLocks.find t =
      if t = ctx.txHash then
        some (((s.mapTxLocks.find t).getD (newLock env ctx.txHash 0)).addSignature ctx)
      else s.mapTxLocks.find t := by
  simp only [compileVote, Dict.find_modify]
  split
  · next ht => subst ht; simp [Dict.find_insert]
  · next ht => exact Dict.find_insert_ne _ ht

theorem countSignatures_addSignature_le (l : CTransactionLock) (ctx : CConsensusVote) :
    l.countSignatures ≤ (l.addSignature ctx).countSignatures := by
  unfold CTransactionLock.countSignatures
  by_cases h : l.nBlockHeight = 0
  · have h' : (l.addSignature ctx).nBlockHeight = 0 := h
    exact Int.le_of_eq (by rw [if_pos h, if_pos h'])
  · rw [if_neg h, if_neg (show ¬(l.addSignature ctx).nBlockHeight = 0 from h)]
    exact Int.ofNat_le.mpr (List.Sublist.countP_le (List.sublist_append_left _ _))

theorem hasQuorum_compileVote {env : Env} {s : State} {t : Uint256} (ctx : CConsensusVote)
    (h : hasQuorum s t = true) : hasQuorum (compileVote env s ctx) t = true := by
  obtain ⟨l, hl, hc⟩ := hasQuorum_iff.mp h
  rw [hasQuorum_iff, compileVote_find]
  split
  · rw [hl]
    exact ⟨_, rfl, Int.le_trans hc (countSignatures_addSignature_le l ctx)⟩
  · exact ⟨l, hl, hc⟩

/-- The mempool is asked about a requested transaction and refuses it. -/
def IxRefused (env : Env) (s : State) (tx : CTransaction) : Prop :=
  env.handles = true ∧ ixWellFormed env s tx = true ∧ acceptToMemoryPool env s tx = false

/-- The vote is the one that completes a lock without conflict. -/
def VoteCompletes (verifyMessage : Bytes → Bytes → String → Bool) (env : Env) (s : State)
    (ctx : CConsensusVote) : Prop :=
  env.handles = true ∧ s.mapTxLockVote.count ctx.getHash = false ∧
    VoteValid verifyMessage env ctx ∧ hasQuorum (compileVote env s ctx) ctx.txHash = true

/-- The event locks the free input `o` for `t`. -/
def NewlyLocked (verifyMessage : Bytes → Bytes → String → Bool) (s : State)
    (e : Env × Event) (o : COutPoint) (t : Uint256) : Prop :=
  s.mapLockedInputs.find o = none ∧
    match e.2 with
    | .ix tx => IxRefused e.1 s tx ∧ t = tx.getHash ∧ o ∈ tx.prevouts
    | .txlvote ctx => VoteCompletes verifyMessage e.1 s ctx ∧ t = ctx.txHash ∧
        ∃ tx, s.mapTxLockReq.find t = some tx ∧ conflictingLock s tx = none ∧ o ∈ tx.prevouts
    | .wallet _ => False
    | .clean => False

theorem find_insertAll_eq_some {m : Dict COutPoint Uint256} {ks : List COutPoint}
    {o : COutPoint} {t t' : Uint256} (h : (m.insertAll ks t').find o = some t) :
    m.find o = some t ∨ (m.find o = none ∧ o ∈ ks ∧ t = t') := by
  rw [Dict.find_insertAll] at h
  split at h
  · next ho =>
    cases hm : m.find o with
    | none =>
      rw [hm] at h
      exact Or.inr ⟨rfl, ho, (Option.some.inj h).symm⟩
    | some t'' =>
      rw [hm] at h
      exact Or.inl h
  · exact Or.inl h

variable (verifyMessage) in
/-- The three outcomes of an `ix` message. -/
theorem processRequest_cases (env : Env) (s : State) (tx : CTransaction) :
    processRequest verifyMessage env s tx = s ∨
    (ixWellFormed env s tx = true ∧ acceptToMemoryPool env s tx = true ∧
      ∃ V, (∀ k v, s.mapTxLockVote.find k = some v → ∃ v', V.find k = some v') ∧
        processRequest verifyMessage env s tx = { s with
          mapTxLocks := (createNewLock env s tx).1.mapTxLocks
          mapTxLockVote := V
          mapTxLockReq := s.mapTxLockReq.insert tx.getHash tx }) ∨
    (ixWellFormed env s tx = true ∧ acceptToMemoryPool env s tx = false ∧
      processRequest verifyMessage env s tx =
        rejectRequest env { s with mapTxLocks := (createNewLock env s tx).1.mapTxLocks } tx) := by
  cases hw : ixWellFormed env s tx with
  | false => exact Or.inl (by simp [processRequest, hw])
  | true =>
    right
    have heq := createNewLock_eq env s tx
    have hacc : acceptToMemoryPool env (createNewLock env s tx).1 tx =
        acceptToMemoryPool env s tx := by
      rw [heq]
      rfl
    have hdef : processRequest verifyMessage env s tx =
        if acceptToMemoryPool env s tx then
          let c := doConsensusVote verifyMessage env (createNewLock env s tx).1 tx
            (createNewLock env s tx).2
          { c with mapTxLockReq := c.mapTxLockReq.insert tx.getHash tx }
        else rejectRequest env (createNewLock env s tx).1 tx := by
      rw [← hacc]
      simp only [processRequest, hw]
      rfl
    cases ha : acceptToMemoryPool env s tx with
    | true =>
      obtain ⟨V, hV, hvote⟩ := doConsensusVote_eq verifyMessage env
        (createNewLock env s tx).1 tx (createNewLock env s tx).2
      rw [heq] at hV
      refine Or.inl ⟨rfl, rfl, V, hV, ?_⟩
      rw [hdef, ha, if_pos rfl, hvote, heq]
    | false =>
      refine Or.inr ⟨rfl, rfl, ?_⟩
      rw [hdef, ha, if_neg Bool.false_ne_true, ← heq]

theorem relayWalletTransaction_cases (env : Env) (s : State) (tx : CTransaction) :
    relayWalletTransaction env s tx = s ∨
    relayWalletTransaction env s tx = { s with
      mapTxLockReq := s.mapTxLockReq.insert tx.getHash tx
      mapTxLocks := (createNewLock env s tx).1.mapTxLocks } := by
  unfold relayWalletTransaction
  split
  · exact Or.inl rfl
  · split
    · exact Or.inl rfl
    · refine Or.inr ?_
      rw [createNewLock_eq]
      simp only [createNewLock]
      cases lockHeight env tx <;> rfl

/-- What a counted vote leaves behind. -/
theorem settleLock_eq (env : Env) (s : State) (txHash : Uint256) :
    ∃ R L I n, SameButExpiry s.mapTxLocks L ∧
      (∀ t tx, s.mapTxLockReq.find t = some tx → R.find t = some tx) ∧
      (∀ t tx, R.find t = some tx → s.mapTxLockReq.find t = some tx ∨ tx = .null) ∧
      (I = s.mapLockedInputs ∨
        (hasQuorum s txHash = true ∧ ∃ tx, R.find txHash = some tx ∧
          conflictingLock s tx = none ∧ I = s.mapLockedInputs.insertAll tx.prevouts txHash)) ∧
      settleLock env s txHash = { s with
        mapTxLockReq := R, mapTxLocks := L, mapLockedInputs := I, nCompleteTXLocks := n } := by
  unfold settleLock
  split
  · next hq =>
    obtain ⟨L, I, n, hL, hI, heq⟩ := lockInputs_eq env s txHash
    refine ⟨_, L, I, n, hL, fun t tx h => Dict.find_insert_of_some _ h, ?_, ?_, heq⟩
    · intro t tx h
      rw [Dict.find_insert] at h
      split at h
      · next ht =>
        cases hr : s.mapTxLockReq.find txHash with
        | none => rw [hr] at h; exact Or.inr (Option.some.inj h).symm
        | some tx' => rw [hr] at h; rw [ht, hr]; exact Or.inl h
      · exact Or.inl h
    · rcases hI with hI | ⟨hc, hI⟩
      · exact Or.inl hI
      · refine Or.inr ⟨hq, _, ?_, hc, hI⟩
        rw [Dict.find_insert, if_pos rfl]
  · exact ⟨_, _, _, _, .refl _, fun _ _ h => h, fun _ _ h => Or.inl h, Or.inl rfl, rfl⟩

end Scrypta.SwiftTX
