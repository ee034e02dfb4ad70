import Scrypta.PaymentVotes
import Scrypta.Toolkit.Runs

/-! Two runs of the payment votes that differ in one forged winner message. `CanVote`
records the height before the signature is verified, so a forged message uses up the one
vote of its masternode. -/

namespace Scrypta.PaymentVotes

open Spork Runs

variable {orc : Oracles}

/-- The message is genuine and inside the window when it arrives in `env`. -/
def Genuine (orc : Oracles) (env : Env) (winner : CMasternodePaymentWinner) : Prop :=
  env.isBlockchainSynced = true ∧ env.fLiteMode = false ∧
    ∃ p nHeight, activeProtocol env.sporks = some p ∧ p ≤ env.peerVersion ∧
      env.tip = some nHeight ∧ inRange env nHeight winner.nBlockHeight = true ∧
      isValid env p winner = true ∧ signatureValid orc env winner = true

/-- The message gets as far as `CanVote`, and `CanVote` records it. -/
def UsesVote (orc : Oracles) (env : Env) (s : State) (winner : CMasternodePaymentWinner) :
    Prop :=
  env.isBlockchainSynced = true ∧ env.fLiteMode = false ∧
    (∃ p, activeProtocol env.sporks = some p ∧ asksToVote orc env s p winner = true) ∧
    s.mapMasternodesLastVote.find (voteKey winner.vinMasternode.prevout) ≠
      some winner.nBlockHeight

/-- A forged message that was processed changes the record of the last vote, if anything. -/
theorem processWinner_forged {env : Env} {s s' : State} {b : Bool}
    {m : CMasternodePaymentWinner} (h : processWinner orc env s m = some (s', b))
    (hm : signatureValid orc env m = false) :
    (UsesVote orc env s m ∧ s' = { s with
      mapMasternodesLastVote :=
        s.mapMasternodesLastVote.set (voteKey m.vinMasternode.prevout) m.nBlockHeight }) ∨
    (¬UsesVote orc env s m ∧ s' = s) := by
  unfold processWinner at h
  split at h
  · next hsync =>
    refine Or.inr ⟨fun hu => ?_, (congrArg Prod.fst (Option.some.inj h)).symm⟩
    simp [hu.1] at hsync
  · next hsync =>
    split at h
    · next hlite =>
      refine Or.inr ⟨fun hu => ?_, (congrArg Prod.fst (Option.some.inj h)).symm⟩
      simp [hu.2.1] at hlite
    · next hlite =>
      obtain ⟨p, hp, heq⟩ := Option.map_eq_some_iff.mp h
      split at heq
      · next hask =>
        refine Or.inr ⟨fun hu => ?_, (congrArg Prod.fst heq).symm⟩
        obtain ⟨_, _, ⟨p', hp', hask'⟩, _⟩ := hu
        obtain rfl : p = p' := Option.some.inj (hp.symm.trans hp')
        simp [hask'] at hask
      · next hask =>
        unfold canVote at heq
        by_cases hlast : s.mapMasternodesLastVote.find
            (voteKey m.vinMasternode.prevout) = some m.nBlockHeight
        · rw [if_pos hlast] at heq
          exact Or.inr ⟨fun hu => hu.2.2.2 hlast, (congrArg Prod.fst heq).symm⟩
        · rw [if_neg hlast] at heq
          simp only [hm] at heq
          refine Or.inl ⟨⟨by simpa using hsync, by simpa using hlite,
            ⟨p, hp, by simpa using hask⟩, hlast⟩, (congrArg Prod.fst heq).symm⟩

/-- A genuine message that is not stored yet reaches `AddWinningMasternode` exactly when
the last vote of its masternode was for another height. -/
theorem reachesAdd_genuine {env : Env} {s : State} {g : CMasternodePaymentWinner}
    (hg : Genuine orc env g)
    (hstored : s.mapMasternodePayeeVotes.find (getHash orc g) = none) :
    reachesAdd orc (some s) env g = true ↔
      s.mapMasternodesLastVote.find (voteKey g.vinMasternode.prevout) ≠
        some g.nBlockHeight := by
  obtain ⟨hsync, hlite, p, nHeight, hp, hpeer, htip, hrange, hvalid, hsig⟩ := hg
  have hask : asksToVote orc env s p g = true := by
    unfold asksToVote
    rw [if_neg (Int.not_lt.mpr hpeer), htip]
    simp [Dict.count_eq_false.mpr hstored, hrange, hvalid]
  unfold reachesAdd
  rw [Option.bind_some, processWinner, hsync, hlite, hp, hsig, Option.map_some, hask]
  unfold canVote
  by_cases hlast : s.mapMasternodesLastVote.find (voteKey g.vinMasternode.prevout) =
      some g.nBlockHeight
  · simp [hlast]
  · simp [hlast]

theorem foldl_cleanPayment (nHeight nLimit : ℤ) (L : List (Uint256 × CMasternodePaymentWinner))
    (s : State) (hold : ∀ e ∈ L, nLimit < nHeight - e.2.nBlockHeight) :
    (L.foldl (cleanPayment nHeight nLimit) s).mapMasternodesLastVote =
        s.mapMasternodesLastVote ∧
      ∀ k, (L.foldl (cleanPayment nHeight nLimit) s).mapMasternodePayeeVotes.find k =
        if k ∈ L.map Prod.fst then none else s.mapMasternodePayeeVotes.find k := by
  induction L generalizing s with
  | nil => simp
  | cons e L ih =>
    have hstep : cleanPayment nHeight nLimit s e = { s with
        mapMasternodePayeeVotes := s.mapMasternodePayeeVotes.erase e.1
        mapMasternodeBlocks := s.mapMasternodeBlocks.erase e.2.nBlockHeight } := by
      simp only [cleanPayment, if_pos (hold e List.mem_cons_self)]
    obtain ⟨hlast, hfind⟩ := ih (cleanPayment nHeight nLimit s e)
      fun e' he' => hold e' (List.mem_cons_of_mem _ he')
    rw [List.foldl_cons]
    refine ⟨by rw [hlast, hstep], fun k => ?_⟩
    rw [hfind k, hstep]
    simp only [Dict.find_erase, List.map_cons, List.mem_cons]
    by_cases hk : k = e.1
    · simp [hk]
    · by_cases hL : k ∈ L.map Prod.fst
      · simp [hk, hL]
      · simp [hk, hL]

theorem exists_height_above (L : List (Uint256 × CMasternodePaymentWinner)) :
    ∃ H, ∀ e ∈ L, e.2.nBlockHeight ≤ H := by
  induction L with
  | nil => exact ⟨0, by simp⟩
  | cons e L ih =>
    obtain ⟨H, hH⟩ := ih
    refine ⟨max H e.2.nBlockHeight, fun e' he' => ?_⟩
    rcases List.mem_cons.mp he' with rfl | he'
    · exact Int.le_max_right _ _
    · exact Int.le_trans (hH e' he') (Int.le_max_left _ _)

/-- Late enough, the cleanup forgets every stored winner and no last vote. -/
theorem exists_cleanup (env : Env) (s : State) : ∃ env', ∀ s' : State,
    s'.mapMasternodePayeeVotes = s.mapMasternodePayeeVotes →
    (cleanPaymentList env' s').mapMasternodesLastVote = s'.mapMasternodesLastVote ∧
      ∀ k, (cleanPaymentList env' s').mapMasternodePayeeVotes.find k = none := by
  obtain ⟨H, hH⟩ := exists_height_above s.mapMasternodePayeeVotes.toList
  refine ⟨{ env with tip := some (H + 1001), size := 0 }, fun s' hsame => ?_⟩
  have hdef : cleanPaymentList { env with tip := some (H + 1001), size := 0 } s' =
      s'.mapMasternodePayeeVotes.toList.foldl (cleanPayment (H + 1001) 1000) s' := by
    have hlimit : max ((5 * 0 / 4 : ℕ) : ℤ) 1000 = 1000 := Int.max_eq_right (by decide)
    simp only [cleanPaymentList, hlimit]
  obtain ⟨hlast, hfind⟩ := foldl_cleanPayment (H + 1001) 1000
    s'.mapMasternodePayeeVotes.toList s' fun e he => by
      have := hH e (hsame ▸ he)
      omega
  rw [hdef]
  refine ⟨hlast, fun k => ?_⟩
  rw [hfind k]
  split
  · rfl
  · next hk =>
    cases hf : s'.mapMasternodePayeeVotes.find k with
    | none => rfl
    | some w => exact absurd (List.mem_map.mpr ⟨_, Dict.mem_toList.mpr hf, rfl⟩) hk

/-- A forged winner message `m` that was processed leaves the fate of every later genuine
message `g` of the same masternode and height unchanged exactly when it did not use up the
vote. -/
theorem forged_winner_harmless_iff (s s' : State) (b : Bool) (env env₀ : Env)
    (m g : CMasternodePaymentWinner) (hdone : processWinner orc env s m = some (s', b))
    (hm : signatureValid orc env m = false) (hg : Genuine orc env₀ g)
    (hmn : g.vinMasternode.prevout = m.vinMasternode.prevout)
    (hheight : g.nBlockHeight = m.nBlockHeight) :
    (∀ cont env', reachesAdd orc (run (step orc) (some s') cont) env' g =
      reachesAdd orc (run (step orc) (some s) cont) env' g) ↔ ¬UsesVote orc env s m := by
  rcases processWinner_forged hdone hm with ⟨huses, rfl⟩ | ⟨hno, rfl⟩
  · refine ⟨fun hall => absurd ?_ Bool.false_ne_true, fun hno => absurd huses hno⟩
    obtain ⟨_, _, _, hlast⟩ := huses
    obtain ⟨late, hlate⟩ := exists_cleanup env s
    -- after the cleanup `g` is stored in neither run, so only the last vote decides
    have hone := hall [(late, .clean)] env₀
    obtain ⟨hkept, hempty⟩ := hlate s rfl
    obtain ⟨hkept', hempty'⟩ := hlate { s with
      mapMasternodesLastVote :=
        s.mapMasternodesLastVote.set (voteKey m.vinMasternode.prevout) m.nBlockHeight } rfl
    have hwithout : reachesAdd orc (run (step orc) (some s) [(late, .clean)]) env₀ g =
        true := by
      refine (reachesAdd_genuine hg (hempty _)).mpr ?_
      rw [hkept, hmn, hheight]
      exact hlast
    rw [hwithout] at hone
    have hwith := (reachesAdd_genuine hg (hempty' _)).mp hone
    rw [hkept', hmn, hheight] at hwith
    exact absurd (Dict.find_set_self _ _ _) hwith
  · exact ⟨fun _ => hno, fun _ _ _ => rfl⟩

section Runs

/-- A synced node at height 1000 that knows one masternode, of rank one. -/
def sampleNode : Env where
  isBlockchainSynced := true
  fLiteMode := false
  sporks := ⟨.empty, 1600000000⟩
  peerVersion := 70922
  tip := some 1000
  countEnabled := 1
  size := 1
  find := fun o => if o = ⟨50, 0⟩ then some ⟨[], 70922⟩ else none
  getMasternodeRank := fun _ _ _ => 1
  getBlockHash := fun _ => true
  fMasterNode := false
  activeMasternode := ⟨.null, [], 0⟩
  isBudgetPaymentBlock := fun _ => false
  nextPayee := fun _ => none
  activePubKey := none
  signMessage := fun _ => none

/-- A toy scheme in which the one-byte signature `1` verifies. -/
def sampleOracles : Oracles where
  verifyMessage := fun _ sig _ => sig == [1]
  hashWinner := fun payee nBlockHeight _ =>
    BitVec.ofNat 256 (payee.length + 256 * nBlockHeight.toNat)
  scriptToString := fun _ => ""

def sampleWinner (sig : UInt8) : CMasternodePaymentWinner :=
  ⟨⟨⟨50, 0⟩, [], 0⟩, 1005, [], [sig]⟩

/-- The genuine winner is reached when it comes alone and is lost after a forged one. -/
theorem forged_winner_shuts_out_genuine :
    signatureValid sampleOracles sampleNode (sampleWinner 0) = false ∧
      signatureValid sampleOracles sampleNode (sampleWinner 1) = true ∧
      reachesAdd sampleOracles (some State.init) sampleNode (sampleWinner 1) = true ∧
      reachesAdd sampleOracles
        (run (step sampleOracles) (some State.init) [(sampleNode, .mnw (sampleWinner 0))])
        sampleNode (sampleWinner 1) = false := by
  decide

theorem forged_winner_harmless_iff_sample :
    let s' := { State.init with
      mapMasternodesLastVote := State.init.mapMasternodesLastVote.set 50 1005 }
    ¬∀ cont env', reachesAdd sampleOracles
        (run (step sampleOracles) (some s') cont) env' (sampleWinner 1) =
      reachesAdd sampleOracles
        (run (step sampleOracles) (some State.init) cont) env' (sampleWinner 1) := by
  have hgenuine : Genuine sampleOracles sampleNode (sampleWinner 1) :=
    ⟨rfl, rfl, 70920, 1000, by decide, by decide, rfl, by decide, by decide, by decide⟩
  have huses : UsesVote sampleOracles sampleNode State.init (sampleWinner 0) :=
    ⟨rfl, rfl, ⟨70920, by decide, by decide⟩, by decide⟩
  intro s' hall
  exact (forged_winner_harmless_iff State.init s' false sampleNode sampleNode
    (sampleWinner 0) (sampleWinner 1) rfl (by decide) hgenuine rfl rfl).mp hall huses

end Runs

end Scrypta.PaymentVotes
