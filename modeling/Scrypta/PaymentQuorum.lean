import Mathlib.Data.List.Induction
import Scrypta.ForgedWinners

/-! The quorum of payment votes: the tally of a payee against the winners that are stored, how
many winners a masternode contributes to a height, and the rank of the masternodes that are
heard. -/

namespace Scrypta.PaymentVotes

open Spork

variable {orc : Oracles}

/-! The tally. -/

section Tally

/-- The entries of a payee at a height. -/
def entriesFor (s : State) (nBlockHeight : ℤ) (payee : CScript) : List CMasternodePayee :=
  (((s.mapMasternodeBlocks.find nBlockHeight).map
    CMasternodeBlockPayees.vecPayments).getD []).filter fun e => e.scriptPubKey = payee

def isFor (nBlockHeight : ℤ) (payee : CScript) (winner : CMasternodePaymentWinner) : ℤ :=
  if winner.nBlockHeight = nBlockHeight ∧ winner.payee = payee then 1 else 0

/-- The number of winners for a payee at a height that are stored. -/
def votesFor (s : State) (nBlockHeight : ℤ) (payee : CScript) : ℤ :=
  s.mapMasternodePayeeVotes.sum (isFor nBlockHeight payee)

/-- One entry with the number of the votes, or none without votes. -/
def tallyOf (payee : CScript) (nVotes : ℤ) : List CMasternodePayee :=
  if nVotes = 0 then [] else [⟨payee, nVotes⟩]

def Tallied (s : State) : Prop :=
  ∀ nBlockHeight payee, entriesFor s nBlockHeight payee =
    tallyOf payee (votesFor s nBlockHeight payee)

theorem addPayee_filter_ne {payee payee' : CScript} (h : payee' ≠ payee) (n : ℤ)
    (vec : List CMasternodePayee) :
    (addPayee payee n vec).filter (fun e => e.scriptPubKey = payee') =
      vec.filter fun e => e.scriptPubKey = payee' := by
  induction vec with
  | nil => simp [addPayee, Ne.symm h]
  | cons e vec ih =>
    rw [addPayee]
    split
    · next he => simp [he, Ne.symm h]
    · rw [List.filter_cons, List.filter_cons, ih]

theorem addPayee_filter_self (payee : CScript) (n : ℤ) (vec : List CMasternodePayee) :
    (addPayee payee n vec).filter (fun e => e.scriptPubKey = payee) =
      match vec.filter fun e => e.scriptPubKey = payee with
      | [] => [⟨payee, n⟩]
      | e :: rest => ⟨payee, e.nVotes + n⟩ :: rest := by
  induction vec with
  | nil => simp [addPayee]
  | cons e vec ih =>
    rw [addPayee]
    by_cases he : e.scriptPubKey = payee
    · simp [he]
    · rw [if_neg he, List.filter_cons, List.filter_cons, if_neg (by simpa using he),
        if_neg (by simpa using he), ih]

theorem isFor_nonneg (nBlockHeight : ℤ) (payee : CScript) (winner : CMasternodePaymentWinner) :
    0 ≤ isFor nBlockHeight payee winner := by
  unfold isFor
  split <;> omega

theorem votesFor_nonneg (s : State) (nBlockHeight : ℤ) (payee : CScript) :
    0 ≤ votesFor s nBlockHeight payee :=
  Dict.sum_nonneg fun _ w _ => isFor_nonneg nBlockHeight payee w

/-- A winner is stored and counted. -/
structure Adds (orc : Oracles) (s : State) (winner : CMasternodePaymentWinner) (s' : State) :
    Prop where
  fresh : s.mapMasternodePayeeVotes.find (getHash orc winner) = none
  votes : s'.mapMasternodePayeeVotes = s.mapMasternodePayeeVotes.set (getHash orc winner) winner
  blocks : s'.mapMasternodeBlocks = (s.mapMasternodeBlocks.insert winner.nBlockHeight
    ⟨winner.nBlockHeight, []⟩).modify winner.nBlockHeight fun b =>
      { b with vecPayments := addPayee winner.payee 1 b.vecPayments }

/-- Votes and tallies stay. -/
def SameVotes (s s' : State) : Prop :=
  s'.mapMasternodePayeeVotes = s.mapMasternodePayeeVotes ∧
    s'.mapMasternodeBlocks = s.mapMasternodeBlocks

theorem SameVotes.tallied {s s' : State} (h : SameVotes s s') (htally : Tallied s) :
    Tallied s' := by
  intro nBlockHeight payee
  rw [entriesFor, votesFor, h.1, h.2]
  exact htally nBlockHeight payee

theorem Adds.entriesFor {s s' : State} {w : CMasternodePaymentWinner} (h : Adds orc s w s')
    (nBlockHeight : ℤ) (payee : CScript) :
    entriesFor s' nBlockHeight payee =
      if nBlockHeight = w.nBlockHeight ∧ payee = w.payee then
        match entriesFor s nBlockHeight payee with
        | [] => [⟨payee, 1⟩]
        | e :: rest => ⟨payee, e.nVotes + 1⟩ :: rest
      else entriesFor s nBlockHeight payee := by
  unfold PaymentVotes.entriesFor
  rw [h.blocks, Dict.find_modify, Dict.find_insert, Dict.find_insert]
  by_cases hheight : nBlockHeight = w.nBlockHeight
  · subst hheight
    have hvec : ((s.mapMasternodeBlocks.find w.nBlockHeight).getD
        ⟨w.nBlockHeight, []⟩).vecPayments =
          ((s.mapMasternodeBlocks.find w.nBlockHeight).map
            CMasternodeBlockPayees.vecPayments).getD [] := by
      cases s.mapMasternodeBlocks.find w.nBlockHeight <;> rfl
    simp only [if_true, Option.map_some, Option.getD_some, hvec, true_and]
    by_cases hpayee : payee = w.payee
    · subst hpayee
      rw [if_pos rfl, addPayee_filter_self]
    · rw [if_neg hpayee, addPayee_filter_ne hpayee]
  · rw [if_neg hheight, if_neg hheight, if_neg fun h => hheight h.1]

theorem Adds.tallied {s s' : State} {w : CMasternodePaymentWinner} (h : Adds orc s w s')
    (htally : Tallied s) : Tallied s' := by
  intro nBlockHeight payee
  have hvotes : votesFor s' nBlockHeight payee =
      votesFor s nBlockHeight payee + isFor nBlockHeight payee w := by
    rw [votesFor, h.votes, Dict.sum_set_of_none h.fresh]
    rfl
  rw [h.entriesFor, htally, hvotes, isFor]
  by_cases hfor : nBlockHeight = w.nBlockHeight ∧ payee = w.payee
  · have hpos := votesFor_nonneg s nBlockHeight payee
    rw [if_pos hfor, if_pos ⟨hfor.1.symm, hfor.2.symm⟩]
    by_cases hzero : votesFor s nBlockHeight payee = 0
    · simp [tallyOf, hzero]
    · have hsum : votesFor s nBlockHeight payee + 1 ≠ 0 := by omega
      simp [tallyOf, hzero, hsum]
  · rw [if_neg hfor, if_neg fun h' => hfor ⟨h'.1.symm, h'.2.symm⟩, add_zero]

/-- The winners of some heights leave, with the tallies of these heights. -/
structure Cleans (s : State) (old : ℤ → Prop) (s' : State) : Prop where
  votes : ∀ k w, s'.mapMasternodePayeeVotes.find k = some w ↔
    s.mapMasternodePayeeVotes.find k = some w ∧ ¬old w.nBlockHeight
  kept : ∀ nBlockHeight payee, ¬old nBlockHeight →
    votesFor s' nBlockHeight payee = votesFor s nBlockHeight payee ∧
      s'.mapMasternodeBlocks.find nBlockHeight = s.mapMasternodeBlocks.find nBlockHeight
  cleared : ∀ nBlockHeight, old nBlockHeight →
    s'.mapMasternodeBlocks.find nBlockHeight = s.mapMasternodeBlocks.find nBlockHeight ∧
        (∀ k w, s.mapMasternodePayeeVotes.find k = some w → w.nBlockHeight ≠ nBlockHeight) ∨
      s'.mapMasternodeBlocks.find nBlockHeight = none

theorem votesFor_eq_zero {s : State} {nBlockHeight : ℤ} (payee : CScript)
    (h : ∀ k w, s.mapMasternodePayeeVotes.find k = some w → w.nBlockHeight ≠ nBlockHeight) :
    votesFor s nBlockHeight payee = 0 := by
  refine List.sum_eq_zero fun x hx => ?_
  obtain ⟨e, he, rfl⟩ := List.mem_map.mp hx
  exact if_neg fun hfor => h e.1 e.2 (Dict.mem_toList.mp he) hfor.1

theorem Cleans.tallied {s s' : State} {old : ℤ → Prop} [DecidablePred old] (h : Cleans s old s')
    (htally : Tallied s) : Tallied s' := by
  intro nBlockHeight payee
  by_cases hold : old nBlockHeight
  · have hzero : votesFor s' nBlockHeight payee = 0 :=
      votesFor_eq_zero payee fun k w hw hheight => ((h.votes k w).mp hw).2 (hheight ▸ hold)
    rw [hzero, entriesFor]
    rcases h.cleared nBlockHeight hold with ⟨hsame, hnone⟩ | hgone
    · rw [hsame, ← PaymentVotes.entriesFor, htally, votesFor_eq_zero payee hnone]
    · rw [hgone]
      rfl
  · obtain ⟨hvotes, hblocks⟩ := h.kept nBlockHeight payee hold
    rw [hvotes, entriesFor, hblocks]
    exact htally nBlockHeight payee

section CleanLoop

variable (nHeight nLimit : ℤ)

/-- The heights that the cleanup drops. -/
def Old (nBlockHeight : ℤ) : Prop := nLimit < nHeight - nBlockHeight

instance : DecidablePred (Old nHeight nLimit) := fun _ => inferInstanceAs (Decidable (_ < _))

/-- After some turns of the loop: what is left of the list is still stored, or was dropped. -/
structure Cleaning (s : State) (rest : List (Uint256 × CMasternodePaymentWinner)) (s' : State) :
    Prop where
  stored : ∀ k w, s'.mapMasternodePayeeVotes.find k = some w →
    s.mapMasternodePayeeVotes.find k = some w
  left : ∀ k w, s.mapMasternodePayeeVotes.find k = some w →
    s'.mapMasternodePayeeVotes.find k = some w ∨ Old nHeight nLimit w.nBlockHeight
  pending : ∀ k w, s'.mapMasternodePayeeVotes.find k = some w →
    Old nHeight nLimit w.nBlockHeight → (k, w) ∈ rest
  kept : ∀ nBlockHeight payee, ¬Old nHeight nLimit nBlockHeight →
    votesFor s' nBlockHeight payee = votesFor s nBlockHeight payee ∧
      s'.mapMasternodeBlocks.find nBlockHeight = s.mapMasternodeBlocks.find nBlockHeight
  cleared : ∀ nBlockHeight,
    s'.mapMasternodeBlocks.find nBlockHeight = s.mapMasternodeBlocks.find nBlockHeight ∧
        (∀ k w, s.mapMasternodePayeeVotes.find k = some w → w.nBlockHeight = nBlockHeight →
          s'.mapMasternodePayeeVotes.find k = some w) ∨
      s'.mapMasternodeBlocks.find nBlockHeight = none

variable {nHeight nLimit}

theorem Cleaning.step {s s' : State} {e : Uint256 × CMasternodePaymentWinner}
    {rest : List (Uint256 × CMasternodePaymentWinner)}
    (h : Cleaning nHeight nLimit s (e :: rest) s')
    (he : s.mapMasternodePayeeVotes.find e.1 = some e.2) :
    Cleaning nHeight nLimit s rest (cleanPayment nHeight nLimit s' e) := by
  unfold cleanPayment
  split
  · next hold =>
    have hfind (k : Uint256) : (s'.mapMasternodePayeeVotes.erase e.1).find k =
        if k = e.1 then none else s'.mapMasternodePayeeVotes.find k := Dict.find_erase _ _ _
    constructor
    · intro k w hw
      rw [hfind] at hw
      split at hw
      · cases hw
      · exact h.stored k w hw
    · intro k w hw
      by_cases hk : k = e.1
      · subst hk
        obtain rfl := Option.some.inj (he.symm.trans hw)
        exact Or.inr hold
      · rw [hfind, if_neg hk]
        exact h.left k w hw
    · intro k w hw hwold
      rw [hfind] at hw
      split at hw
      · cases hw
      · next hk =>
        rcases List.mem_cons.mp (h.pending k w hw hwold) with rfl | hmem
        · exact absurd rfl hk
        · exact hmem
    · intro nBlockHeight payee hnew
      have hne : nBlockHeight ≠ e.2.nBlockHeight := fun heq => hnew (heq ▸ hold)
      obtain ⟨hvotes, hblocks⟩ := h.kept nBlockHeight payee hnew
      refine ⟨?_, ?_⟩
      · rw [← hvotes, votesFor, votesFor]
        cases hcur : s'.mapMasternodePayeeVotes.find e.1 with
        | none => rw [Dict.sum_perm (Dict.toList_of_find_none hcur).symm]; rfl
        | some w =>
          obtain rfl := Option.some.inj (he.symm.trans (h.stored _ _ hcur))
          have hzero : isFor nBlockHeight payee e.2 = 0 := if_neg fun hfor => hne hfor.1.symm
          rw [Dict.sum_erase hcur, hzero, sub_zero]
      · rw [Dict.find_erase, if_neg hne, hblocks]
    · intro nBlockHeight
      rw [Dict.find_erase]
      by_cases hheight : nBlockHeight = e.2.nBlockHeight
      · exact Or.inr (if_pos hheight)
      · rw [if_neg hheight]
        rcases h.cleared nBlockHeight with ⟨hsame, hall⟩ | hgone
        · refine Or.inl ⟨hsame, fun k w hw hwheight => ?_⟩
          have hk : k ≠ e.1 := by
            rintro rfl
            obtain rfl := Option.some.inj (he.symm.trans hw)
            exact hheight hwheight.symm
          rw [hfind, if_neg hk]
          exact hall k w hw hwheight
        · exact Or.inr hgone
  · next hnew =>
    refine ⟨h.stored, h.left, fun k w hw hwold => ?_, h.kept, h.cleared⟩
    rcases List.mem_cons.mp (h.pending k w hw hwold) with heq | hmem
    · obtain rfl : w = e.2 := congrArg Prod.snd heq
      exact absurd hwold hnew
    · exact hmem

theorem Cleaning.loop {s s' : State} {rest : List (Uint256 × CMasternodePaymentWinner)}
    (h : Cleaning nHeight nLimit s rest s')
    (hrest : ∀ e ∈ rest, s.mapMasternodePayeeVotes.find e.1 = some e.2) :
    Cleaning nHeight nLimit s [] (rest.foldl (cleanPayment nHeight nLimit) s') := by
  induction rest generalizing s' with
  | nil => exact h
  | cons e rest ih =>
    exact ih (h.step (hrest e List.mem_cons_self)) fun e' he' =>
      hrest e' (List.mem_cons_of_mem _ he')

theorem cleans_loop (s : State) :
    Cleans s (Old nHeight nLimit)
      (s.mapMasternodePayeeVotes.toList.foldl (cleanPayment nHeight nLimit) s) := by
  have hstart : Cleaning nHeight nLimit s s.mapMasternodePayeeVotes.toList s := {
    stored := fun _ _ hw => hw
    left := fun _ _ hw => Or.inl hw
    pending := fun _ _ hw _ => Dict.mem_toList.mpr hw
    kept := fun _ _ _ => ⟨rfl, rfl⟩
    cleared := fun _ => Or.inl ⟨rfl, fun _ _ hw _ => hw⟩ }
  have hend := hstart.loop fun e he => Dict.mem_toList.mp he
  constructor
  · intro k w
    constructor
    · intro hw
      exact ⟨hend.stored k w hw, fun hold => nomatch hend.pending k w hw hold⟩
    · rintro ⟨hw, hnew⟩
      exact (hend.left k w hw).resolve_right hnew
  · exact hend.kept
  · intro nBlockHeight hold
    rcases hend.cleared nBlockHeight with ⟨hsame, hall⟩ | hgone
    · refine Or.inl ⟨hsame, fun k w hw hheight => ?_⟩
      exact nomatch hend.pending k w (hall k w hw hheight) (hheight ▸ hold)
    · exact Or.inr hgone

end CleanLoop

end Tally

/-! What stores a winner. -/

section Stores

variable (orc)

/-- The message passes all tests but that of `CanVote`. -/
def Admissible (env : Env) (s : State) (winner : CMasternodePaymentWinner) : Prop :=
  env.isBlockchainSynced = true ∧ env.fLiteMode = false ∧
    (∃ p, activeProtocol env.sporks = some p ∧ asksToVote orc env s p winner = true) ∧
    signatureValid orc env winner = true ∧ env.getBlockHash (winner.nBlockHeight - 100) = true

/-- `CanVote` finds the height in its record. -/
def Recorded (s : State) (winner : CMasternodePaymentWinner) : Prop :=
  s.mapMasternodesLastVote.find (voteKey winner.vinMasternode.prevout) = some winner.nBlockHeight

/-- The vote that `ProcessBlock` makes, before it is signed. -/
def newWinner (env : Env) (nBlockHeight : ℤ) : CMasternodePaymentWinner :=
  if env.isBudgetPaymentBlock nBlockHeight then ⟨env.activeMasternode, 0, [], []⟩
  else
    match env.nextPayee nBlockHeight with
    | some payee => ⟨env.activeMasternode, nBlockHeight, payee, []⟩
    | none => ⟨env.activeMasternode, 0, [], []⟩

/-- `ProcessBlock` stores a vote of the node's own masternode. -/
def OwnVote (env : Env) (s : State) (nBlockHeight : ℤ) (winner : CMasternodePaymentWinner) :
    Prop :=
  env.fMasterNode = true ∧
    (∃ p, activeProtocol env.sporks = some p ∧
      env.getMasternodeRank env.activeMasternode.prevout (nBlockHeight - 100) p ≠ -1 ∧
      env.getMasternodeRank env.activeMasternode.prevout (nBlockHeight - 100) p ≤
        signaturesTotal) ∧
    s.nLastBlockHeight < nBlockHeight ∧ sign orc env (newWinner env nBlockHeight) = some winner ∧
    env.getBlockHash (winner.nBlockHeight - 100) = true ∧
    s.mapMasternodePayeeVotes.find (getHash orc winner) = none

/-- The winner that the event stores. -/
def Stores (env : Env) (s : State) : Event → CMasternodePaymentWinner → Prop
  | .mnw winner, w => w = winner ∧ Admissible orc env s winner ∧ ¬Recorded s winner
  | .block nBlockHeight, w => OwnVote orc env s nBlockHeight w
  | .clean, _ => False

variable {orc} {env : Env} {s s' : State}

theorem addWinningMasternode_cases (w : CMasternodePaymentWinner) :
    (env.getBlockHash (w.nBlockHeight - 100) = true ∧
        s.mapMasternodePayeeVotes.find (getHash orc w) = none ∧
        Adds orc s w (addWinningMasternode orc env s w).1 ∧
        (addWinningMasternode orc env s w).2 = true) ∨
      (¬(env.getBlockHash (w.nBlockHeight - 100) = true ∧
          s.mapMasternodePayeeVotes.find (getHash orc w) = none) ∧
        addWinningMasternode orc env s w = (s, false)) := by
  unfold addWinningMasternode
  cases hblock : env.getBlockHash (w.nBlockHeight - 100) with
  | false => exact Or.inr ⟨fun h => Bool.false_ne_true h.1, rfl⟩
  | true =>
    cases hstored : s.mapMasternodePayeeVotes.find (getHash orc w) with
    | some w' =>
      refine Or.inr ⟨fun h => Option.some_ne_none _ h.2, ?_⟩
      simp [Dict.count, hstored]
    | none =>
      have hcount : s.mapMasternodePayeeVotes.count (getHash orc w) = false :=
        Dict.count_eq_false.mpr hstored
      rw [hcount]
      exact Or.inl ⟨rfl, rfl, ⟨hstored, rfl, rfl⟩, rfl⟩

theorem fresh_of_asksToVote {p : ℤ} {w : CMasternodePaymentWinner}
    (h : asksToVote orc env s p w = true) :
    s.mapMasternodePayeeVotes.find (getHash orc w) = none := by
  unfold asksToVote at h
  split at h
  · cases h
  · split at h
    · cases h
    · simp only [Bool.and_eq_true, Bool.not_eq_true'] at h
      exact Dict.count_eq_false.mp h.1.1

theorem processWinner_stores {w : CMasternodePaymentWinner} {b : Bool}
    (h : processWinner orc env s w = some (s', b)) :
    (Stores orc env s (.mnw w) w ∧ Adds orc s w s') ∨
      ((∀ w', ¬Stores orc env s (.mnw w) w') ∧ SameVotes s s') := by
  have hno (hnot : ¬(Admissible orc env s w ∧ ¬Recorded s w)) :
      ∀ w', ¬Stores orc env s (.mnw w) w' := fun w' hstores => hnot hstores.2
  unfold processWinner at h
  split at h
  · next hsync =>
    cases h
    refine Or.inr ⟨hno fun hs => ?_, rfl, rfl⟩
    simp [hs.1.1] at hsync
  next hsync =>
  split at h
  · next hlite =>
    cases h
    refine Or.inr ⟨hno fun hs => ?_, rfl, rfl⟩
    simp [hs.1.2.1] at hlite
  next hlite =>
  obtain ⟨p, hp, heq⟩ := Option.map_eq_some_iff.mp h
  split at heq
  · next hask =>
    cases heq
    refine Or.inr ⟨hno fun hs => ?_, rfl, rfl⟩
    obtain ⟨p', hp', hask'⟩ := hs.1.2.2.1
    obtain rfl : p = p' := Option.some.inj (hp.symm.trans hp')
    simp [hask'] at hask
  next hask =>
  unfold canVote at heq
  by_cases hrecord : s.mapMasternodesLastVote.find (voteKey w.vinMasternode.prevout) =
      some w.nBlockHeight
  · rw [if_pos hrecord] at heq
    cases heq
    exact Or.inr ⟨hno fun hs => hs.2 hrecord, rfl, rfl⟩
  · rw [if_neg hrecord] at heq
    simp only at heq
    split at heq
    · next hsig =>
      cases heq
      refine Or.inr ⟨hno fun hs => ?_, rfl, rfl⟩
      simp [hs.1.2.2.2.1] at hsig
    · next hsig =>
      have hask' : asksToVote orc env s p w = true := by simpa using hask
      let s₁ : State := { s with
        mapMasternodesLastVote :=
          s.mapMasternodesLastVote.set (voteKey w.vinMasternode.prevout) w.nBlockHeight }
      rcases @addWinningMasternode_cases orc env s₁ w with
        ⟨hblock, hfresh, hadds, -⟩ | ⟨hnot, hsame⟩
      · cases heq
        refine Or.inl ⟨⟨rfl, ⟨by simpa using hsync, by simpa using hlite, ⟨p, hp, hask'⟩,
          by simpa using hsig, hblock⟩, hrecord⟩, hadds.fresh, hadds.votes, hadds.blocks⟩
      · rw [hsame] at heq
        cases heq
        exact Or.inr ⟨hno fun hs => hnot ⟨hs.1.2.2.2.2, fresh_of_asksToVote hask'⟩, rfl, rfl⟩

theorem processBlock_stores {nBlockHeight : ℤ}
    (h : processBlock orc env s nBlockHeight = some s') :
    (∃ w, Stores orc env s (.block nBlockHeight) w ∧ Adds orc s w s') ∨
      ((∀ w, ¬Stores orc env s (.block nBlockHeight) w) ∧ SameVotes s s') := by
  unfold processBlock at h
  split at h
  · next hmn =>
    cases h
    refine Or.inr ⟨fun w hw => ?_, rfl, rfl⟩
    simp [hw.1] at hmn
  next hmn =>
  obtain ⟨p, hp, heq⟩ := Option.map_eq_some_iff.mp h
  have hprotocol : ∀ {w}, OwnVote orc env s nBlockHeight w →
      env.getMasternodeRank env.activeMasternode.prevout (nBlockHeight - 100) p ≠ -1 ∧
      env.getMasternodeRank env.activeMasternode.prevout (nBlockHeight - 100) p ≤
        signaturesTotal := by
    intro w hw
    obtain ⟨p', hp', hrank⟩ := hw.2.1
    obtain rfl : p = p' := Option.some.inj (hp.symm.trans hp')
    exact hrank
  by_cases hnone : env.getMasternodeRank env.activeMasternode.prevout (nBlockHeight - 100) p = -1
  · rw [if_pos hnone] at heq
    obtain rfl := heq
    exact Or.inr ⟨fun w hw => (hprotocol hw).1 hnone, rfl, rfl⟩
  rw [if_neg hnone] at heq
  by_cases htop : signaturesTotal <
      env.getMasternodeRank env.activeMasternode.prevout (nBlockHeight - 100) p
  · rw [if_pos htop] at heq
    obtain rfl := heq
    exact Or.inr ⟨fun w hw => absurd (hprotocol hw).2 (not_le.mpr htop), rfl, rfl⟩
  rw [if_neg htop] at heq
  by_cases hlast : nBlockHeight ≤ s.nLastBlockHeight
  · rw [if_pos hlast] at heq
    obtain rfl := heq
    exact Or.inr ⟨fun w hw => absurd hw.2.2.1 (not_lt.mpr hlast), rfl, rfl⟩
  rw [if_neg hlast] at heq
  dsimp only at heq
  generalize hsign : sign orc env _ = signed at heq
  change sign orc env (newWinner env nBlockHeight) = signed at hsign
  cases signed with
  | none =>
    obtain rfl := heq
    refine Or.inr ⟨fun w hw => ?_, rfl, rfl⟩
    have hsigned := hw.2.2.2.1
    rw [hsign] at hsigned
    cases hsigned
  | some w =>
    rcases @addWinningMasternode_cases orc env s w with
      ⟨hblock, hfresh, hadds, htrue⟩ | ⟨hnot, hfalse⟩
    · obtain ⟨s₁, hadd⟩ : ∃ s₁, addWinningMasternode orc env s w = (s₁, true) :=
        ⟨_, Prod.ext rfl htrue⟩
      rw [hadd] at hadds
      simp only [hadd] at heq
      obtain rfl := heq
      exact Or.inl ⟨w, ⟨by simpa using hmn, ⟨p, hp, hnone, not_lt.mp htop⟩, not_le.mp hlast,
        hsign, hblock, hfresh⟩, hadds.fresh, hadds.votes, hadds.blocks⟩
    · simp only [hfalse] at heq
      obtain rfl := heq
      refine Or.inr ⟨fun w' hw => hnot ?_, rfl, rfl⟩
      obtain rfl := Option.some.inj (hw.2.2.2.1.symm.trans hsign)
      exact ⟨hw.2.2.2.2.1, hw.2.2.2.2.2⟩

end Stores

/-! The quorum in every state of a run. -/

section Runs

/-- The payment votes with the rank under which each winner of the network was accepted. -/
structure Tracked where
  state : State
  rankAt : Uint256 → Option ℤ

def Tracked.init : Tracked := ⟨.init, fun _ => none⟩

/-- The rank of the masternode of a message in the block that `IsValid` looks at. -/
def rankOf (env : Env) : Event → Option ℤ
  | .mnw winner => (activeProtocol env.sporks).map fun p =>
      env.getMasternodeRank winner.vinMasternode.prevout (winner.nBlockHeight - 100) p
  | _ => none

/-- A winner that is new in the votes is given the rank of the message. -/
def Tracked.next (orc : Oracles) (t : Tracked) (env : Env) (e : Event) : Option Tracked :=
  (step orc (some t.state) (env, e)).map fun s => ⟨s, fun k =>
    if !t.state.mapMasternodePayeeVotes.count k && s.mapMasternodePayeeVotes.count k then
      rankOf env e
    else t.rankAt k⟩

/-- The votes in memory and those in `mnpayments.dat`. -/
structure Node where
  live : Tracked
  disk : Tracked

def Node.init : Node := ⟨.init, .init⟩

/-- An event, `DumpMasternodePayments`, or a new start of the program, which reads the file if it
can. -/
inductive Input
  | event (env : Env) (e : Event)
  | dump
  | restart (env : Env) (readable : Bool)

/-- The file holds the winners and their tallies only. `Read` ends with a cleanup. -/
def Node.step (orc : Oracles) (n : Node) : Input → Option Node
  | .event env e => (n.live.next orc env e).map fun t => { n with live := t }
  | .dump => some { n with disk := n.live }
  | .restart env readable =>
    let found := if readable then n.disk else .init
    some { n with live := { found with state := cleanPaymentList env { found.state with
      nLastBlockHeight := 0
      mapMasternodesLastVote := .empty } } }

def Node.run (orc : Oracles) (inputs : List Input) : Option Node :=
  inputs.foldlM (Node.step orc) .init

/-- A winner of the masternode for the height is stored. -/
def HasVoted (s : State) (outpoint : COutPoint) (nBlockHeight : ℤ) : Prop :=
  ∃ k w, s.mapMasternodePayeeVotes.find k = some w ∧ w.vinMasternode.prevout = outpoint ∧
    w.nBlockHeight = nBlockHeight

/-- No masternode has two stored winners for one height. -/
def OneEach (s : State) : Prop :=
  ∀ k k' w w', s.mapMasternodePayeeVotes.find k = some w →
    s.mapMasternodePayeeVotes.find k' = some w' →
    w.vinMasternode.prevout = w'.vinMasternode.prevout → w.nBlockHeight = w'.nBlockHeight → k = k'

def TopRanked (t : Tracked) : Prop :=
  ∀ k w r, t.state.mapMasternodePayeeVotes.find k = some w → t.rankAt k = some r →
    1 ≤ r ∧ r ≤ signaturesTotal

/-- The tally of a payee is the number of the stored winners for it, and these are of different
masternodes with a rank from one to ten. -/
structure Quorum (t : Tracked) : Prop where
  tallied : Tallied t.state
  oneEach : OneEach t.state
  topRanked : TopRanked t

/-- A message that is admissible comes from a masternode that has a rank, and when a winner of
it for the height is stored already, that height is the last one it voted for. The node itself
votes for no height that its masternode has a stored winner for. -/
def Sound (orc : Oracles) (env : Env) (s : State) : Event → Prop
  | .mnw w => Admissible orc env s w →
      (HasVoted s w.vinMasternode.prevout w.nBlockHeight → Recorded s w) ∧
        (Recorded s w ∨ ∀ p, activeProtocol env.sporks = some p →
          1 ≤ env.getMasternodeRank w.vinMasternode.prevout (w.nBlockHeight - 100) p)
  | .block nBlockHeight => ∀ w, OwnVote orc env s nBlockHeight w →
      ¬HasVoted s w.vinMasternode.prevout w.nBlockHeight
  | .clean => True

variable {env : Env} {t t' : Tracked}

theorem Adds.find {s s' : State} {w : CMasternodePaymentWinner} (h : Adds orc s w s')
    (k : Uint256) : s'.mapMasternodePayeeVotes.find k =
      if k = getHash orc w then some w else s.mapMasternodePayeeVotes.find k := by
  rw [h.votes, Dict.find_set]

theorem Adds.oneEach_iff {s s' : State} {w : CMasternodePaymentWinner} (h : Adds orc s w s')
    (hone : OneEach s) :
    OneEach s' ↔ ¬HasVoted s w.vinMasternode.prevout w.nBlockHeight := by
  constructor
  · rintro hone' ⟨k, w', hw', hmn, hheight⟩
    have hne : k ≠ getHash orc w := by
      rintro rfl
      rw [h.fresh] at hw'
      cases hw'
    refine hne (hone' k (getHash orc w) w' w ?_ ?_ hmn hheight)
    · rw [h.find, if_neg hne, hw']
    · rw [h.find, if_pos rfl]
  · intro hnew k k' w₁ w₂ hw₁ hw₂ hmn hheight
    rw [h.find] at hw₁ hw₂
    by_cases hk : k = getHash orc w
    · by_cases hk' : k' = getHash orc w
      · rw [hk, hk']
      · rw [if_pos hk, Option.some.injEq] at hw₁
        rw [if_neg hk'] at hw₂
        subst hw₁
        exact absurd ⟨k', w₂, hw₂, hmn.symm, hheight.symm⟩ hnew
    · rw [if_neg hk] at hw₁
      by_cases hk' : k' = getHash orc w
      · rw [if_pos hk', Option.some.injEq] at hw₂
        subst hw₂
        exact absurd ⟨k, w₁, hw₁, hmn, hheight⟩ hnew
      · rw [if_neg hk'] at hw₂
        exact hone k k' w₁ w₂ hw₁ hw₂ hmn hheight

/-- Nothing new is stored. -/
theorem Quorum.of_stored {s' : State} {rankAt : Uint256 → Option ℤ} (h : Quorum t)
    (htally : Tallied s')
    (hstored : ∀ k w, s'.mapMasternodePayeeVotes.find k = some w →
      t.state.mapMasternodePayeeVotes.find k = some w)
    (hrank : ∀ k, t.state.mapMasternodePayeeVotes.find k ≠ none → rankAt k = t.rankAt k) :
    Quorum ⟨s', rankAt⟩ where
  tallied := htally
  oneEach := fun k k' w w' hw hw' => h.oneEach k k' w w' (hstored k w hw) (hstored k' w' hw')
  topRanked := fun k w r hw hr => by
    have hold := hstored k w hw
    exact h.topRanked k w r hold ((hrank k (by simp [hold])).symm.trans hr)

theorem rankAt_of_stored {s' : State} {r : Option ℤ} (k : Uint256)
    (h : t.state.mapMasternodePayeeVotes.find k ≠ none) :
    (if !t.state.mapMasternodePayeeVotes.count k && s'.mapMasternodePayeeVotes.count k then r
      else t.rankAt k) = t.rankAt k := by
  obtain ⟨w, hw⟩ := Option.ne_none_iff_exists'.mp h
  rw [Dict.count_eq_true.mpr ⟨w, hw⟩]
  rfl

/-- A winner that is added keeps the quorum if it is the first of its masternode for the height
and has a rank of the top. -/
theorem Quorum.add_iff {s' : State} {w : CMasternodePaymentWinner} {e : Event} (h : Quorum t)
    (hadds : Adds orc t.state w s') :
    Quorum ⟨s', fun k =>
        if !t.state.mapMasternodePayeeVotes.count k && s'.mapMasternodePayeeVotes.count k then
          rankOf env e
        else t.rankAt k⟩ ↔
      ¬HasVoted t.state w.vinMasternode.prevout w.nBlockHeight ∧
        ∀ r, rankOf env e = some r → 1 ≤ r ∧ r ≤ signaturesTotal := by
  have hnew : s'.mapMasternodePayeeVotes.find (getHash orc w) = some w := by
    rw [hadds.find, if_pos rfl]
  have hcount : (!t.state.mapMasternodePayeeVotes.count (getHash orc w) &&
      s'.mapMasternodePayeeVotes.count (getHash orc w)) = true := by
    rw [Dict.count_eq_false.mpr hadds.fresh, Dict.count_eq_true.mpr ⟨w, hnew⟩]
    rfl
  constructor
  · intro h'
    refine ⟨(hadds.oneEach_iff h.oneEach).mp h'.oneEach, fun r hr => ?_⟩
    exact h'.topRanked (getHash orc w) w r hnew ((if_pos hcount).trans hr)
  · rintro ⟨hfirst, htop⟩
    refine ⟨hadds.tallied h.tallied, (hadds.oneEach_iff h.oneEach).mpr hfirst, ?_⟩
    intro k w' r hw' hr
    by_cases hk : k = getHash orc w
    · subst hk
      exact htop r ((if_pos hcount).symm.trans hr)
    · change s'.mapMasternodePayeeVotes.find k = some w' at hw'
      rw [hadds.find, if_neg hk] at hw'
      exact h.topRanked k w' r hw' ((rankAt_of_stored k (by simp [hw'])).symm.trans hr)

theorem rank_le_of_asksToVote {s : State} {p : ℤ} {w : CMasternodePaymentWinner}
    (h : asksToVote orc env s p w = true) :
    env.getMasternodeRank w.vinMasternode.prevout (w.nBlockHeight - 100) p ≤
      signaturesTotal := by
  unfold asksToVote at h
  split at h
  · cases h
  · split at h
    · cases h
    · simp only [Bool.and_eq_true] at h
      have hvalid := h.2
      unfold isValid at hvalid
      split at hvalid
      · cases hvalid
      · split at hvalid
        · cases hvalid
        · exact of_decide_eq_true hvalid

theorem cleans_cleanPaymentList (env : Env) (s : State) :
    (Tallied s → Tallied (cleanPaymentList env s)) ∧
      (∀ k w, (cleanPaymentList env s).mapMasternodePayeeVotes.find k = some w →
        s.mapMasternodePayeeVotes.find k = some w) ∧
      ∀ nBlockHeight b, (cleanPaymentList env s).mapMasternodeBlocks.find nBlockHeight = some b →
        s.mapMasternodeBlocks.find nBlockHeight = some b := by
  unfold cleanPaymentList
  cases env.tip with
  | none => exact ⟨id, fun _ _ hw => hw, fun _ _ hb => hb⟩
  | some nHeight =>
    have hcleans := @cleans_loop nHeight (max (5 * env.size / 4 : ℕ) 1000) s
    refine ⟨hcleans.tallied, fun k w hw => ((hcleans.votes k w).mp hw).1, fun h b hb => ?_⟩
    by_cases hold : Old nHeight (max (5 * env.size / 4 : ℕ) 1000) h
    · rcases hcleans.cleared h hold with ⟨hsame, -⟩ | hgone
      · exact hsame ▸ hb
      · rw [hgone] at hb
        cases hb
    · exact (hcleans.kept h [] hold).2 ▸ hb

/-- One event keeps the quorum exactly when it is sound. -/
theorem quorum_next_iff {e : Event} (h : Quorum t) (hnext : t.next orc env e = some t') :
    Quorum t' ↔ Sound orc env t.state e := by
  obtain ⟨s', hs', rfl⟩ := Option.map_eq_some_iff.mp hnext
  have hkeeps (hsame : SameVotes t.state s') : Quorum ⟨s', fun k =>
      if !t.state.mapMasternodePayeeVotes.count k && s'.mapMasternodePayeeVotes.count k then
        rankOf env e
      else t.rankAt k⟩ :=
    h.of_stored (hsame.tallied h.tallied) (fun k w hw => by rwa [hsame.1] at hw)
      fun k hk => rankAt_of_stored k hk
  cases e with
  | mnw w =>
    obtain ⟨⟨s₁, b⟩, hprocess, rfl⟩ := Option.map_eq_some_iff.mp hs'
    rcases processWinner_stores hprocess with ⟨⟨-, hadm, hnew⟩, hadds⟩ | ⟨hnone, hsame⟩
    · rw [h.add_iff hadds]
      obtain ⟨p, hp, hask⟩ := hadm.2.2.1
      constructor
      · rintro ⟨hfirst, htop⟩ -
        refine ⟨fun hvoted => absurd hvoted hfirst, Or.inr fun p' hp' => ?_⟩
        exact (htop _ (by rw [rankOf, hp', Option.map_some])).1
      · intro hsound
        obtain ⟨hvoted, hranked⟩ := hsound hadm
        refine ⟨fun hv => hnew (hvoted hv), fun r hr => ?_⟩
        rw [rankOf, hp, Option.map_some, Option.some.injEq] at hr
        subst hr
        exact ⟨hranked.resolve_left hnew p hp, rank_le_of_asksToVote hask⟩
    · refine iff_of_true (hkeeps hsame) fun hadm => ?_
      have hrecorded : Recorded t.state w := by
        by_contra hnot
        exact hnone w ⟨rfl, hadm, hnot⟩
      exact ⟨fun _ => hrecorded, Or.inl hrecorded⟩
  | block nBlockHeight =>
    rcases processBlock_stores hs' with ⟨w, hown, hadds⟩ | ⟨hnone, hsame⟩
    · rw [h.add_iff hadds]
      constructor
      · rintro ⟨hfirst, -⟩ w' hown'
        obtain rfl := Option.some.inj (hown'.2.2.2.1.symm.trans hown.2.2.2.1)
        exact hfirst
      · intro hsound
        exact ⟨hsound w hown, fun r hr => nomatch hr⟩
    · exact iff_of_true (hkeeps hsame) fun w hown => absurd hown (hnone w)
  | clean =>
    obtain rfl := Option.some.inj hs'
    obtain ⟨htally, hstored, -⟩ := cleans_cleanPaymentList env t.state
    exact iff_of_true (h.of_stored (htally h.tallied) hstored fun k hk => rankAt_of_stored k hk)
      trivial

/-- An event that does not return is sound. -/
theorem sound_of_next_none {e : Event} (h : t.next orc env e = none) :
    Sound orc env t.state e := by
  have hstep : step orc (some t.state) (env, e) = none := Option.map_eq_none_iff.mp h
  cases e with
  | mnw w =>
    intro hadm
    obtain ⟨hsync, hlite, ⟨p, hp, -⟩, -⟩ := hadm
    change (processWinner orc env t.state w).map Prod.fst = none at hstep
    rw [Option.map_eq_none_iff] at hstep
    unfold processWinner at hstep
    rw [hsync, hlite, hp] at hstep
    cases hstep
  | block nBlockHeight =>
    intro w hown
    obtain ⟨hmn, ⟨p, hp, -⟩, -⟩ := hown
    change processBlock orc env t.state nBlockHeight = none at hstep
    unfold processBlock at hstep
    rw [hmn, hp] at hstep
    cases hstep
  | clean => trivial

theorem quorum_init : Quorum .init where
  tallied := fun nBlockHeight payee => by
    have hzero : votesFor State.init nBlockHeight payee = 0 :=
      votesFor_eq_zero payee fun k w hw => by
        change (Dict.empty : Dict Uint256 CMasternodePaymentWinner).find k = some w at hw
        rw [Dict.find_empty] at hw
        cases hw
    change entriesFor State.init nBlockHeight payee =
      tallyOf payee (votesFor State.init nBlockHeight payee)
    rw [hzero]
    rfl
  oneEach := fun k _ w _ hw => by
    change (Dict.empty : Dict Uint256 CMasternodePaymentWinner).find k = some w at hw
    rw [Dict.find_empty] at hw
    cases hw
  topRanked := fun _ _ _ _ hr => nomatch hr

theorem Node.run_concat {inputs : List Input} {i : Input} :
    Node.run orc (inputs ++ [i]) = (Node.run orc inputs).bind fun n => n.step orc i := by
  simp [Node.run, List.foldlM_append, Option.bind_eq_bind]

theorem Quorum.restart {found : Tracked} (h : Quorum found) (env : Env) :
    Quorum { found with state := cleanPaymentList env { found.state with
      nLastBlockHeight := 0
      mapMasternodesLastVote := .empty } } := by
  obtain ⟨htally, hstored, -⟩ := cleans_cleanPaymentList env { found.state with
    nLastBlockHeight := 0
    mapMasternodesLastVote := .empty }
  exact h.of_stored (htally (SameVotes.tallied ⟨rfl, rfl⟩ h.tallied)) hstored fun _ _ => rfl

/-- The events of the run are sound in the states in which they happen. -/
def SoundRun (orc : Oracles) (inputs : List Input) : Prop :=
  ∀ past env e rest n, inputs = past ++ .event env e :: rest → Node.run orc past = some n →
    Sound orc env n.live.state e

theorem SoundRun.quorum {inputs : List Input} (h : SoundRun orc inputs) {n : Node}
    (hn : Node.run orc inputs = some n) : Quorum n.live ∧ Quorum n.disk := by
  induction inputs using List.reverseRecOn generalizing n with
  | nil =>
    obtain rfl := Option.some.inj hn
    exact ⟨quorum_init, quorum_init⟩
  | append_singleton inputs i ih =>
    rw [Node.run_concat] at hn
    obtain ⟨mid, hmid, hstep⟩ := Option.bind_eq_some_iff.mp hn
    have hpast : SoundRun orc inputs := fun past env e rest n hsplit =>
      h past env e (rest ++ [i]) n (by rw [hsplit, List.append_assoc, List.cons_append])
    obtain ⟨hlive, hdisk⟩ := ih hpast hmid
    cases i with
    | event env e =>
      obtain ⟨t, ht, rfl⟩ := Option.map_eq_some_iff.mp hstep
      exact ⟨(quorum_next_iff hlive ht).mpr (h inputs env e [] mid rfl hmid), hdisk⟩
    | dump =>
      obtain rfl := Option.some.inj hstep
      exact ⟨hlive, hlive⟩
    | restart env readable =>
      obtain rfl := Option.some.inj hstep
      refine ⟨Quorum.restart ?_ env, hdisk⟩
      cases readable with
      | true => exact hdisk
      | false => exact quorum_init

/-- In every state of a run the tallies count the stored winners, which are one for each
masternode and height and come from masternodes with a rank from one to ten, if and only if the
events of the run are sound. -/
theorem quorum_iff_sound (orc : Oracles) (inputs : List Input) :
    (∀ past rest n, inputs = past ++ rest → Node.run orc past = some n → Quorum n.live) ↔
      SoundRun orc inputs := by
  constructor
  · intro h past env e rest n hsplit hn
    have hbefore := h past _ n hsplit hn
    cases hnext : n.live.next orc env e with
    | none => exact sound_of_next_none hnext
    | some t =>
      have hrun : Node.run orc (past ++ [.event env e]) = some { n with live := t } := by
        rw [Node.run_concat, hn, Option.bind_some, Node.step, hnext, Option.map_some]
      have hafter := h (past ++ [.event env e]) rest _ (by simp [hsplit]) hrun
      exact (quorum_next_iff hbefore hnext).mp hafter
  · intro h past rest n hsplit hn
    have hpast : SoundRun orc past := fun past' env e rest' n' hsplit' =>
      h past' env e (rest' ++ rest) n' (by rw [hsplit, hsplit', List.append_assoc]; rfl)
    exact (hpast.quorum hn).1

def winnerFor (nBlockHeight : ℤ) (payee : CScript) : CMasternodePaymentWinner :=
  ⟨⟨⟨50, 0⟩, [], 0⟩, nBlockHeight, payee, [1]⟩

def betweenVotes : List Input :=
  [.event sampleNode (.mnw (winnerFor 1005 [])), .event sampleNode (.mnw (winnerFor 1006 [])),
    .event sampleNode (.mnw (winnerFor 1005 [1]))]

def unrankedVote : List Input :=
  [.event { sampleNode with getMasternodeRank := fun _ _ _ => -1 } (.mnw (winnerFor 1005 []))]

/-- One masternode has two winners for a height after a vote for another height, and a winner of
a masternode without a rank is stored. -/
theorem quorum_broken :
    (∃ n, Node.run sampleOracles betweenVotes = some n ∧ ¬OneEach n.live.state) ∧
      ∃ n, Node.run sampleOracles unrankedVote = some n ∧ ¬TopRanked n.live := by
  have htwo : (Node.run sampleOracles betweenVotes).map (fun n =>
      (n.live.state.mapMasternodePayeeVotes.find (getHash sampleOracles (winnerFor 1005 [])),
        n.live.state.mapMasternodePayeeVotes.find (getHash sampleOracles (winnerFor 1005 [1])))) =
      some (some (winnerFor 1005 []), some (winnerFor 1005 [1])) := by
    decide
  have hrank : (Node.run sampleOracles unrankedVote).map (fun n =>
      (n.live.state.mapMasternodePayeeVotes.find (getHash sampleOracles (winnerFor 1005 [])),
        n.live.rankAt (getHash sampleOracles (winnerFor 1005 [])))) =
      some (some (winnerFor 1005 []), some (-1)) := by
    decide
  obtain ⟨n, hn, hfinds⟩ := Option.map_eq_some_iff.mp htwo
  obtain ⟨m, hm, hfind⟩ := Option.map_eq_some_iff.mp hrank
  rw [Prod.mk.injEq] at hfinds hfind
  refine ⟨⟨n, hn, fun hone => ?_⟩, ⟨m, hm, fun htop => ?_⟩⟩
  · have hsame := hone _ _ _ _ hfinds.1 hfinds.2 rfl rfl
    revert hsame
    decide
  · have hpos := (htop _ _ _ hfind.1 hfind.2).1
    revert hpos
    decide

end Runs

end Scrypta.PaymentVotes
