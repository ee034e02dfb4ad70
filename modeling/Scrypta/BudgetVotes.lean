import Scrypta.Budget

/-! Votes on proposals and on finalized budgets. A proposal keeps one vote of each masternode,
under the hash of its outpoint, and so does a finalized budget. -/

namespace Scrypta.Budget

def voteAbstain : ℤ := 0
def voteYes : ℤ := 1
def voteNo : ℤ := 2

def budgetVoteUpdateMin : ℤ := 60 * 60

/-- `fValid` is true in a vote that has just been read. -/
structure CBudgetVote where
  vin : CTxIn
  nProposalHash : Uint256
  nVote : ℤ
  nTime : ℤ
  vchSig : Bytes
  fValid : Bool := true
  deriving DecidableEq, Repr

structure CBudgetProposal where
  strProposalName : String
  strURL : String
  nBlockStart : ℤ
  nBlockEnd : ℤ
  nAmount : CAmount
  address : CScript
  nTime : ℤ
  nFeeTXHash : Uint256
  mapVotes : Dict Uint256 CBudgetVote
  fValid : Bool := true

/-- The functions that do not change during a run: message verification and the hashes of
outpoints, votes, proposals and finalized budgets over the fields that they cover. -/
structure Oracles where
  verifyMessage : Bytes → Bytes → String → Bool
  hashOutPoint : COutPoint → Uint256
  hashVote : CTxIn → Uint256 → ℤ → ℤ → Uint256
  hashBudgetVote : CTxIn → Uint256 → ℤ → Uint256
  hashProposal : String → String → ℤ → ℤ → CAmount → CScript → Uint256
  hashBudget : String → ℤ → List CTxBudgetPayment → Uint256

section Hashes

variable (orc : Oracles)

def CBudgetVote.getHash (vote : CBudgetVote) : Uint256 :=
  orc.hashVote vote.vin vote.nProposalHash vote.nVote vote.nTime

def CFinalizedBudgetVote.getHash (vote : CFinalizedBudgetVote) : Uint256 :=
  orc.hashBudgetVote vote.vin vote.nBudgetHash vote.nTime

def CBudgetProposal.getHash (p : CBudgetProposal) : Uint256 :=
  orc.hashProposal p.strProposalName p.strURL p.nBlockStart p.nBlockEnd p.nAmount p.address

def CFinalizedBudget.getHash (b : CFinalizedBudget) : Uint256 :=
  orc.hashBudget b.strBudgetName b.nBlockStart b.vecBudgetPayments

/-- What a masternode signs. -/
def CBudgetVote.strMessage (vote : CBudgetVote) : String :=
  vote.vin.prevout.toStringShort ++ vote.nProposalHash.toHex ++ toString vote.nVote ++
    toString vote.nTime

def CFinalizedBudgetVote.strMessage (vote : CFinalizedBudgetVote) : String :=
  vote.vin.prevout.toStringShort ++ vote.nBudgetHash.toHex ++ toString vote.nTime

/-- `SignatureValid(true)`: `find` gives the key of a masternode by its outpoint. -/
def signatureValid (find : COutPoint → Option Bytes) (vin : CTxIn) (vchSig : Bytes)
    (strMessage : String) : Bool :=
  match find vin.prevout with
  | none => false
  | some pubKeyMasternode => orc.verifyMessage pubKeyMasternode vchSig strMessage

def CBudgetVote.signatureValid (find : COutPoint → Option Bytes) (vote : CBudgetVote) : Bool :=
  Budget.signatureValid orc find vote.vin vote.vchSig vote.strMessage

def CFinalizedBudgetVote.signatureValid (find : COutPoint → Option Bytes)
    (vote : CFinalizedBudgetVote) : Bool :=
  Budget.signatureValid orc find vote.vin vote.vchSig vote.strMessage

end Hashes

section Runs

/-- A toy scheme in which the one-byte signature `1` verifies and hashes are short. -/
def sampleHashes : Oracles where
  verifyMessage := fun _ sig _ => sig == [1]
  hashOutPoint := fun o => o.hash
  hashVote := fun vin _ nVote nTime =>
    BitVec.ofInt 256 (vin.prevout.hash.toNat + 256 * nVote + 65536 * nTime)
  hashBudgetVote := fun vin _ nTime => BitVec.ofInt 256 (vin.prevout.hash.toNat + 256 * nTime)
  hashProposal := fun _ _ nBlockStart _ _ _ => BitVec.ofInt 256 nBlockStart
  hashBudget := fun _ nBlockStart _ => BitVec.ofInt 256 nBlockStart

def sampleProposal : CBudgetProposal where
  strProposalName := "website"
  strURL := "https://example.org"
  nBlockStart := 43200
  nBlockEnd := 108000
  nAmount := 100 * coin
  address := [0x51]
  nTime := 1600000000
  nFeeTXHash := 1
  mapVotes := .empty

/-- A vote of the masternode at the outpoint `n:0` on that proposal. -/
def sampleVote (n : Uint256) (nVote nTime : ℤ) (sig : UInt8) : CBudgetVote :=
  ⟨⟨⟨n, 0⟩, [], 0⟩, 43200, nVote, nTime, [sig], true⟩

end Runs

section Update

variable {ν : Type} (nTime : ν → ℤ)

/-- Why a vote does not take the place of the recorded one. -/
def updateError (voteHash : Uint256) (recorded vote : ν) : Option String :=
  if nTime vote < nTime recorded then
    some s!"new vote older than existing vote - {voteHash.toHex}\n"
  else if toInt64 (nTime vote - nTime recorded) < budgetVoteUpdateMin then
    some s!"time between votes is too soon - {voteHash.toHex} - {
      toInt64 (nTime vote - nTime recorded)}\n"
  else none

def futureError (voteHash : Uint256) (now : ℤ) (vote : ν) : Option String :=
  if now + 60 * 60 < nTime vote then
    some s!"new vote is too far ahead of current time - {voteHash.toHex} - nTime {
      nTime vote} - Max Time {now + 60 * 60}\n"
  else none

/-- `AddOrUpdateVote` for a vote under the key `hash`, at the time `now`. -/
def addOrUpdate (voteHash : Uint256) (now : ℤ) (mapVotes : Dict Uint256 ν) (hash : Uint256)
    (vote : ν) : Except String (Dict Uint256 ν) :=
  match ((mapVotes.find hash).bind fun recorded => updateError nTime voteHash recorded vote).or
      (futureError nTime voteHash now vote) with
  | some strError => .error strError
  | none => .ok (mapVotes.set hash vote)

end Update

section Update

variable (orc : Oracles)

def CBudgetProposal.addOrUpdateVote (now : ℤ) (p : CBudgetProposal) (vote : CBudgetVote) :
    Except String CBudgetProposal :=
  (addOrUpdate CBudgetVote.nTime (vote.getHash orc) now p.mapVotes
    (orc.hashOutPoint vote.vin.prevout) vote).map fun mapVotes => { p with mapVotes := mapVotes }

def CFinalizedBudget.addOrUpdateVote (now : ℤ) (b : CFinalizedBudget)
    (vote : CFinalizedBudgetVote) : Except String CFinalizedBudget :=
  (addOrUpdate CFinalizedBudgetVote.nTime (vote.getHash orc) now b.mapVotes
    (orc.hashOutPoint vote.vin.prevout) vote).map fun mapVotes => { b with mapVotes := mapVotes }

end Update

namespace CBudgetProposal

def countVotes (p : CBudgetProposal) (nVote : ℤ) : ℤ :=
  p.mapVotes.toList.countP fun e => e.2.nVote == nVote && e.2.fValid

def getYeas (p : CBudgetProposal) : ℤ := p.countVotes voteYes

def getNays (p : CBudgetProposal) : ℤ := p.countVotes voteNo

def getAbstains (p : CBudgetProposal) : ℤ := p.countVotes voteAbstain

theorem countVotes_congr {p q : CBudgetProposal}
    (h : ∀ k, p.mapVotes.find k = q.mapVotes.find k) (nVote : ℤ) :
    p.countVotes nVote = q.countVotes nVote := by
  unfold countVotes
  rw [(Dict.toList_perm h).countP_eq]

end CBudgetProposal

section Spec

variable {ν : Type} {nTime : ν → ℤ}

/-- The vote takes the place of the recorded one. -/
def replaces (nTime : ν → ℤ) (recorded vote : ν) : Bool :=
  decide (nTime recorded ≤ nTime vote) &&
    decide (budgetVoteUpdateMin ≤ toInt64 (nTime vote - nTime recorded))

theorem replaces_iff {recorded vote : ν} :
    replaces nTime recorded vote = true ↔ nTime recorded ≤ nTime vote ∧
      budgetVoteUpdateMin ≤ toInt64 (nTime vote - nTime recorded) := by
  simp [replaces]

/-- A vote of the same second is too soon. -/
theorem lt_of_replaces {recorded vote : ν} (h : replaces nTime recorded vote = true) :
    nTime recorded < nTime vote := by
  obtain ⟨hle, hmin⟩ := replaces_iff.mp h
  rcases Int.lt_or_eq_of_le hle with hlt | heq
  · exact hlt
  · rw [heq, Int.sub_self] at hmin
    exact absurd hmin (by decide)

theorem updateError_eq_none {voteHash : Uint256} {recorded vote : ν} :
    updateError nTime voteHash recorded vote = none ↔ replaces nTime recorded vote = true := by
  rw [replaces_iff, updateError]
  by_cases hold : nTime vote < nTime recorded
  · rw [if_pos hold]
    simp only [reduceCtorEq, false_iff, not_and]
    intro hle
    omega
  · rw [if_neg hold]
    by_cases hsoon : toInt64 (nTime vote - nTime recorded) < budgetVoteUpdateMin
    · rw [if_pos hsoon]
      simp only [reduceCtorEq, false_iff, not_and]
      intro _
      omega
    · rw [if_neg hsoon]
      simp only [true_iff]
      omega

/-- What `addOrUpdate` leaves behind, for a vote that is not too far ahead. -/
theorem addOrUpdate_of_le {voteHash hash : Uint256} {now : ℤ} {mapVotes : Dict Uint256 ν}
    {vote : ν} (hnow : nTime vote ≤ now + 60 * 60) :
    (addOrUpdate nTime voteHash now mapVotes hash vote).toOption =
      if ∀ recorded, mapVotes.find hash = some recorded → replaces nTime recorded vote = true then
        some (mapVotes.set hash vote)
      else none := by
  have hfuture : futureError nTime voteHash now vote = none := if_neg (Int.not_lt.mpr hnow)
  rw [addOrUpdate, hfuture, Option.or_none]
  cases hfind : mapVotes.find hash with
  | none => simp [Except.toOption]
  | some recorded =>
    simp only [Option.bind_some, Option.some.injEq, forall_eq']
    cases herr : updateError nTime voteHash recorded vote with
    | none => rw [if_pos (updateError_eq_none.mp herr)]; rfl
    | some strError =>
      rw [if_neg fun h => by rw [updateError_eq_none.mpr h] at herr; cases herr]
      rfl

end Spec

end Scrypta.Budget
