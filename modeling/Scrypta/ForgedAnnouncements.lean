import Scrypta.MasternodeOwners
import Scrypta.MasternodeRuns

/-! What a forged announcement or ping, or the announcement of another masternode of the same
owner, does to later messages. A message is remembered before its signature is verified, under a
hash that covers neither the signature nor, for an announcement, the outpoint. -/

namespace Scrypta.Masternodes

open Runs

section Messages

variable (orc : Oracles)

/-- The signature of the message does not verify; that of a ping is checked with the key of the
entry it is for. -/
def Forged (s : CMasternodeMan) : Input → Prop
  | .mnb mnb =>
    orc.verifyMessage mnb.pubKeyCollateralAddress mnb.sig (mnb.strMessage orc) = false
  | .mnp mnp => ∀ pmn, s.find mnp.vin.prevout = some pmn →
    orc.verifyMessage pmn.pubKeyMasternode mnp.vchSig (mnp.strMessage orc) = false
  | _ => False

/-- The node does not look at the message, or has seen its hash. -/
def Ignored (s : CMasternodeMan) (e : Env × Input) : Prop :=
  match e.2 with
  | .mnb mnb => (e.1.fLiteMode || !e.1.isBlockchainSynced) = true ∨
      s.mapSeenMasternodeBroadcast.count (mnb.getHash orc) = true
  | .mnp mnp => (e.1.fLiteMode || !e.1.isBlockchainSynced) = true ∨
      s.mapSeenMasternodePing.count (mnp.getHash orc) = true
  | _ => False

/-- A forged message is remembered, and nothing else. -/
def forgedScope : Input → Scope
  | .mnb mnb => ⟨fun _ => false, (· = mnb.getHash orc), fun _ => False⟩
  | .mnp mnp => ⟨fun _ => false, fun _ => False, (· = mnp.getHash orc)⟩
  | _ => ⟨fun _ => false, fun _ => False, fun _ => False⟩

/-- Everything that the listed entry, the remembered messages and the events say about the
outpoint. -/
def outpointScope (s : CMasternodeMan) (es : List (Env × Input)) (o : COutPoint) : Scope where
  outpoints := fun prevout => prevout == o
  broadcasts := fun k =>
    (∃ mn ∈ s.vMasternodes, mn.vin.prevout = o ∧
      orc.hashBroadcast mn.sigTime mn.pubKeyCollateralAddress = k) ∨
    (∃ mnb, s.mapSeenMasternodeBroadcast.find k = some mnb ∧ mnb.vin.prevout = o) ∨
    ∃ e ∈ es, ∃ mnb, e.2 = .mnb mnb ∧ mnb.vin.prevout = o ∧ mnb.getHash orc = k
  pings := fun k =>
    ∃ e ∈ es, ∃ mnb, e.2 = .mnb mnb ∧ mnb.vin.prevout = o ∧ mnb.lastPing.getHash orc = k

end Messages

section Harmless

variable {orc : Oracles} {s : CMasternodeMan} {e : Env × Input}

theorem step_of_ignored (h : Ignored orc s e) : step orc s e = s := by
  obtain ⟨env, input⟩ := e
  unfold step
  cases input with
  | mnb mnb =>
    simp only
    split
    · rfl
    · next hon => exact processBroadcast_of_seen (h.resolve_left hon)
  | mnp mnp =>
    simp only
    split
    · rfl
    · next hon =>
      rw [processPing_eq]
      exact if_pos (h.resolve_left hon)
  | check => exact h.elim
  | checkAndRemove forceExpiredRemoval => exact h.elim

theorem forged_agree (h : Forged orc s e.2) : Agree (forgedScope orc e.2) (step orc s e) s := by
  obtain ⟨env, input⟩ := e
  unfold step
  cases input with
  | mnb mnb =>
    simp only
    split
    · exact Agree.refl s
    · have hpass : ¬Passes orc env mnb := by
        intro hpass
        exact absurd (hpass.signature.symm.trans h) (by decide)
      rw [processBroadcast_of_not_passes hpass]
      split
      · exact Agree.refl s
      · exact rememberBroadcast_self rfl
  | mnp mnp =>
    simp only
    split
    · exact Agree.refl s
    · rw [processPing_eq]
      split
      · exact Agree.refl s
      · rcases checkAndUpdate_cases orc env (rememberPing orc s mnp) mnp true with
          ⟨hsame, _⟩ | ⟨pmn, hfind, haccept, _⟩
        · rw [hsame]
          exact rememberPing_self rfl
        · exact absurd (haccept.signature.symm.trans (h pmn hfind)) (by decide)
  | check => exact h.elim
  | checkAndRemove forceExpiredRemoval => exact h.elim

theorem marked_of_forgedScope (x : Input) (t : CMasternodeMan) :
    Marked orc (forgedScope orc x) t := by
  have hnone : ∀ o, (forgedScope orc x).outpoints o = false := by
    intro o
    cases x <;> rfl
  refine ⟨fun mn _ hin => ?_, fun k mnb _ hin => ?_⟩
  · rw [hnone] at hin
    exact Bool.noConfusion hin
  · rw [hnone] at hin
    exact Bool.noConfusion hin

theorem outside_forgedScope (x : Input) (l : List CMasternode) :
    outside (forgedScope orc x) l = l := by
  cases x <;> simp [outside, forgedScope]

theorem marked_outpointScope (es : List (Env × Input)) (o : COutPoint) :
    Marked orc (outpointScope orc s es o) s := by
  refine ⟨fun mn hmn hin => ?_, fun k mnb hfind hin => ?_⟩
  · exact Or.inl ⟨mn, hmn, beq_iff_eq.mp hin, rfl⟩
  · exact Or.inr (Or.inl ⟨mnb, hfind, beq_iff_eq.mp hin⟩)

/-- The announcement itself changes nothing of other outpoints. -/
theorem outpoint_agree {V : Scope} {mnb : CMasternodeBroadcast} (he : e.2 = .mnb mnb)
    (ho : V.outpoints mnb.vin.prevout = true) (hmark : Marked orc V s) (h : Spares orc V s e) :
    Agree V (step orc s e) s := by
  obtain ⟨env, input⟩ := e
  obtain rfl : input = .mnb mnb := he
  obtain ⟨hk, hping, hown, hkey⟩ : V.broadcasts (mnb.getHash orc) ∧
      V.pings (mnb.lastPing.getHash orc) ∧
      (mnb.lastPing.isEmpty = true ∨ V.outpoints mnb.lastPing.vin.prevout = true) ∧
      ¬OwnKey env mnb := by
    simpa only [Spares, ho, if_true] using h
  unfold step
  simp only
  split
  · exact Agree.refl s
  · exact hmark.processBroadcast_self ho hk hping hown hkey

end Harmless

section Samples

/-- The owner of `sampleBroadcast` announces a second masternode at the given time. -/
def twinBroadcast (sigTime : ℤ) : CMasternodeBroadcast := { sampleBroadcast with
  vin := sampleVin 51
  addr := ⟨0xffff01020305, 42222⟩
  pubKeyMasternode := secondKey
  sigTime := sigTime }

/-- The signature `1` verifies under the first announcement, both times of the second one, and the
ping. -/
def twinOracles : Oracles := { sampleNames with
  verifyMessage := fun key sig text => sig == [1] &&
    (key == ownerKey && (text == sampleBroadcast.strMessage sampleNames ||
        text == (twinBroadcast 1600000000).strMessage sampleNames ||
        text == (twinBroadcast 1600000001).strMessage sampleNames) ||
      key == firstKey && text == samplePing.strMessage sampleNames) }

/-- What anybody can send: the time and the key of an announcement, without a signature. -/
def forgedBroadcast (sigTime : ℤ) : CMasternodeBroadcast := { sampleBroadcast with
  vin := sampleVin 99
  sig := []
  sigTime := sigTime }

def forgedPing : CMasternodePing := { samplePing with vchSig := [] }

/-- The list after the events. -/
def listAfter (inputs : List Input) : List CMasternode :=
  (run (step twinOracles) .init
    (inputs.map fun input => (sampleEnv 1600000000, input))).vMasternodes

end Samples

end Scrypta.Masternodes
