import Scrypta.SwiftQuorum

/-! Two runs of the lock protocol that differ in one forged vote. The duplicate filter is
filled before the vote is verified, under a key without height and signature, so the
forged vote shuts out the genuine one of the same masternode on the same transaction. -/

namespace Scrypta.SwiftTX

open Runs

variable {verifyMessage : Bytes → Bytes → String → Bool}

/-- How often the lock of its transaction counts the vote. -/
def timesCounted (s : State) (g : CConsensusVote) : ℕ :=
  match s.mapTxLocks.find g.txHash with
  | some l => l.vecConsensusVotes.count g
  | none => 0

theorem getHash_eq_of_same {g m : CConsensusVote}
    (hmn : g.vinMasternode.prevout = m.vinMasternode.prevout) (htx : g.txHash = m.txHash) :
    g.getHash = m.getHash := by
  simp only [CConsensusVote.getHash, hmn, htx]

theorem timesCounted_sameButExpiry {s s' : State}
    (h : SameButExpiry s.mapTxLocks s'.mapTxLocks) (g : CConsensusVote) :
    timesCounted s' g = timesCounted s g := by
  unfold timesCounted
  rcases h g.txHash with heq | ⟨l, e, hl, hnew⟩
  · rw [heq]
  · rw [hl, hnew]

theorem timesCounted_countVote (env : Env) (s : State) (g : CConsensusVote) :
    timesCounted (countVote env s g) g = timesCounted s g + 1 := by
  unfold timesCounted
  rw [countVote, compileVote_find, if_pos rfl]
  cases s.mapTxLocks.find g.txHash with
  | none => simp [CTransactionLock.addSignature, newLock]
  | some l => simp [CTransactionLock.addSignature]

theorem timesCounted_processVote {env : Env} {s : State} {g : CConsensusVote}
    (hk : s.mapTxLockVote.count g.getHash = false) (hg : VoteValid verifyMessage env g) :
    timesCounted (processVote verifyMessage env s g) g = timesCounted s g + 1 := by
  obtain ⟨U, heq⟩ := processVote_of_valid hk hg
  obtain ⟨R, L, I, n, hL, _, _, _, hsettle⟩ := settleLock_eq env (countVote env s g) g.txHash
  rw [heq, hsettle, ← timesCounted_countVote env s g]
  exact timesCounted_sameButExpiry hL g

/-- A forged vote `m` leaves every later treatment of a genuine vote `g` of the same
masternode on the same transaction unchanged exactly when the handler is off or the key of
the two votes is taken already. -/
theorem forged_vote_harmless_iff (s : State) (env : Env) (m g : CConsensusVote) (env' : Env)
    (hm : ¬VoteValid verifyMessage env m)
    (hg : env'.handles = true ∧ VoteValid verifyMessage env' g)
    (hmn : g.vinMasternode.prevout = m.vinMasternode.prevout) (htx : g.txHash = m.txHash) :
    (∀ cont, timesCounted
        (run (step verifyMessage) (step verifyMessage s (env, .txlvote m)) cont) g =
      timesCounted (run (step verifyMessage) s cont) g) ↔
    env.handles = false ∨ s.mapTxLockVote.count m.getHash = true := by
  constructor
  · intro hall
    by_contra hno
    rw [not_or] at hno
    have hh : env.handles = true := by simpa using hno.1
    have hk : s.mapTxLockVote.count m.getHash = false := by simpa using hno.2
    have hkey := getHash_eq_of_same hmn htx
    have hforged : step verifyMessage s (env, .txlvote m) =
        { s with mapTxLockVote := s.mapTxLockVote.insert m.getHash m } := by
      simp only [step, hh, if_true]
      exact processVote_of_not_valid hk hm
    have hdropped : step verifyMessage (step verifyMessage s (env, .txlvote m))
        (env', .txlvote g) = step verifyMessage s (env, .txlvote m) := by
      rw [hforged]
      simp only [step, hg.1, if_true]
      refine processVote_of_known (Dict.count_eq_true.mpr ⟨m, ?_⟩)
      rw [hkey, Dict.find_insert_of_none _ (Dict.count_eq_false.mp hk), if_pos rfl]
    have hcounted : timesCounted (step verifyMessage s (env', .txlvote g)) g =
        timesCounted s g + 1 := by
      simp only [step, hg.1, if_true]
      exact timesCounted_processVote (hkey ▸ hk) hg.2
    have hone := hall [(env', .txlvote g)]
    simp only [run_cons, run_nil] at hone
    rw [hdropped, hcounted, hforged] at hone
    exact absurd hone (Nat.ne_of_lt (Nat.lt_succ_self _))
  · intro hsafe cont
    have hsame : step verifyMessage s (env, .txlvote m) = s := by
      rcases hsafe with hh | hk
      · simp [step, hh]
      · simp only [step]
        split
        · exact processVote_of_known hk
        · rfl
    rw [hsame]

section Runs

/-- The sample vote with a signature that does not verify. -/
def forgedVote (n : BitVec 32) (txHash : Uint256) : CConsensusVote :=
  { sampleVote n txHash with vchMasterNodeSignature := [0] }

/-- The genuine vote counts when it comes alone and is dropped after a forged one. -/
theorem forged_vote_shuts_out_genuine :
    ¬VoteValid sampleVerify sampleNode (forgedVote 0 1) ∧
      VoteValid sampleVerify sampleNode (sampleVote 0 1) ∧
      timesCounted (run (step sampleVerify) State.init
        [(sampleNode, .txlvote (sampleVote 0 1))]) (sampleVote 0 1) = 1 ∧
      timesCounted (run (step sampleVerify) State.init
        [(sampleNode, .txlvote (forgedVote 0 1)), (sampleNode, .txlvote (sampleVote 0 1))])
        (sampleVote 0 1) = 0 := by
  decide

theorem forged_vote_harmless_iff_sample :
    ¬∀ cont, timesCounted
        (run (step sampleVerify)
          (step sampleVerify State.init (sampleNode, .txlvote (forgedVote 0 1))) cont)
        (sampleVote 0 1) =
      timesCounted (run (step sampleVerify) State.init cont) (sampleVote 0 1) := by
  rw [forged_vote_harmless_iff State.init sampleNode (forgedVote 0 1) (sampleVote 0 1)
    sampleNode (by decide) (by decide) rfl rfl]
  decide

end Runs

end Scrypta.SwiftTX
