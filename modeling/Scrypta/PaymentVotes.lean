import Scrypta.Spork

/-! Masternode payment votes. A masternode in the top ranks announces the payee of a future
block in a winner message (`mnw`). The node keeps the winners it accepted, the tally of
each block, and the last height every masternode voted for. -/

namespace Scrypta.PaymentVotes

open Spork

def signaturesRequired : ℤ := 6
def signaturesTotal : ℤ := 10

structure CMasternodePayee where
  scriptPubKey : CScript
  nVotes : ℤ
  deriving DecidableEq, Repr

structure CMasternodeBlockPayees where
  nBlockHeight : ℤ
  vecPayments : List CMasternodePayee
  deriving DecidableEq, Repr

/-- One more vote for the first entry of the payee, or a new entry. -/
def addPayee (payeeIn : CScript) (nIncrement : ℤ) : List CMasternodePayee → List CMasternodePayee
  | [] => [⟨payeeIn, nIncrement⟩]
  | payee :: rest =>
    if payee.scriptPubKey = payeeIn then
      { payee with nVotes := payee.nVotes + nIncrement } :: rest
    else payee :: addPayee payeeIn nIncrement rest

structure CMasternodePaymentWinner where
  vinMasternode : CTxIn
  nBlockHeight : ℤ
  payee : CScript
  vchSig : Bytes
  deriving DecidableEq, Repr

structure CMasternode where
  pubKeyMasternode : Bytes
  protocolVersion : ℤ
  deriving DecidableEq, Repr

structure State where
  nLastBlockHeight : ℤ
  mapMasternodePayeeVotes : Dict Uint256 CMasternodePaymentWinner
  mapMasternodeBlocks : Dict ℤ CMasternodeBlockPayees
  mapMasternodesLastVote : Dict Uint256 ℤ

def State.init : State := ⟨0, .empty, .empty, .empty⟩

/-- What the rest of the node answers while one message is handled. `tip` is the height of
the active chain, or `none` without a tip or without the chain lock. -/
structure Env where
  isBlockchainSynced : Bool
  fLiteMode : Bool
  sporks : Sporks
  peerVersion : ℤ
  tip : Option ℤ
  countEnabled : ℕ
  size : ℕ
  find : COutPoint → Option CMasternode
  getMasternodeRank : COutPoint → ℤ → ℤ → ℤ
  getBlockHash : ℤ → Bool
  fMasterNode : Bool
  activeMasternode : CTxIn
  isBudgetPaymentBlock : ℤ → Bool
  nextPayee : ℤ → Option CScript
  activePubKey : Option Bytes
  signMessage : String → Option Bytes

/-- The functions that do not change during a run: message verification, the hash of a
winner over its payee, height and outpoint, and the printed form of a script. -/
structure Oracles where
  verifyMessage : Bytes → Bytes → String → Bool
  hashWinner : CScript → ℤ → COutPoint → Uint256
  scriptToString : CScript → String

variable (orc : Oracles)

def getHash (winner : CMasternodePaymentWinner) : Uint256 :=
  orc.hashWinner winner.payee winner.nBlockHeight winner.vinMasternode.prevout

def strMessage (winner : CMasternodePaymentWinner) : String :=
  winner.vinMasternode.prevout.hash.toHex ++ "-" ++
    toString winner.vinMasternode.prevout.n.toNat ++ toString winner.nBlockHeight ++
    orc.scriptToString winner.payee

def signatureValid (env : Env) (winner : CMasternodePaymentWinner) : Bool :=
  match env.find winner.vinMasternode.prevout with
  | some pmn => orc.verifyMessage pmn.pubKeyMasternode winner.vchSig (strMessage orc winner)
  | none => false

/-- `CMasternodePaymentWinner::IsValid` under the protocol version `activeProtocol`. A rank
of `-1`, for a masternode that is not ranked, passes. -/
def isValid (env : Env) (activeProtocol : ℤ) (winner : CMasternodePaymentWinner) : Bool :=
  match env.find winner.vinMasternode.prevout with
  | none => false
  | some pmn =>
    if pmn.protocolVersion < activeProtocol then false
    else decide (env.getMasternodeRank winner.vinMasternode.prevout
      (winner.nBlockHeight - 100) activeProtocol ≤ signaturesTotal)

/-- The key of `mapMasternodesLastVote`. -/
def voteKey (outMasternode : COutPoint) : Uint256 :=
  outMasternode.hash + outMasternode.n.setWidth 256

/-- `CanVote` answers and records the vote. -/
def canVote (s : State) (outMasternode : COutPoint) (nBlockHeight : ℤ) : State × Bool :=
  if s.mapMasternodesLastVote.find (voteKey outMasternode) = some nBlockHeight then (s, false)
  else
    ({ s with mapMasternodesLastVote :=
        s.mapMasternodesLastVote.set (voteKey outMasternode) nBlockHeight }, true)

def addWinningMasternode (env : Env) (s : State) (winnerIn : CMasternodePaymentWinner) :
    State × Bool :=
  if !env.getBlockHash (winnerIn.nBlockHeight - 100) then (s, false)
  else if s.mapMasternodePayeeVotes.count (getHash orc winnerIn) then (s, false)
  else
    let votes := s.mapMasternodePayeeVotes.set (getHash orc winnerIn) winnerIn
    let blocks := (s.mapMasternodeBlocks.insert winnerIn.nBlockHeight
      ⟨winnerIn.nBlockHeight, []⟩).modify winnerIn.nBlockHeight fun b =>
        { b with vecPayments := addPayee winnerIn.payee 1 b.vecPayments }
    ({ s with mapMasternodePayeeVotes := votes, mapMasternodeBlocks := blocks }, true)

/-- The height is accepted from a window around the tip. The lower end is computed in
floating point and cut off towards zero. -/
def inRange (env : Env) (nHeight nBlockHeight : ℤ) : Bool :=
  let nFirstBlock := (4 * nHeight - 5 * env.countEnabled).tdiv 4
  !(decide (nBlockHeight < nFirstBlock) || decide (nHeight + 20 < nBlockHeight))

/-- The tests of an `mnw` message before `CanVote`, under the protocol version `p`. -/
def asksToVote (env : Env) (s : State) (p : ℤ) (winner : CMasternodePaymentWinner) : Bool :=
  if env.peerVersion < p then false
  else
    match env.tip with
    | none => false
    | some nHeight =>
      !s.mapMasternodePayeeVotes.count (getHash orc winner) &&
        inRange env nHeight winner.nBlockHeight && isValid env p winner

/-- The `mnw` message: the state after it and whether `AddWinningMasternode` was reached.
`none` when `ActiveProtocol` does not return. -/
def processWinner (env : Env) (s : State) (winner : CMasternodePaymentWinner) :
    Option (State × Bool) :=
  if !env.isBlockchainSynced then some (s, false)
  else if env.fLiteMode then some (s, false)
  else
    (activeProtocol env.sporks).map fun p =>
      if !asksToVote orc env s p winner then (s, false)
      else
        match canVote s winner.vinMasternode.prevout winner.nBlockHeight with
        | (s, false) => (s, false)
        | (s, true) =>
          if !signatureValid orc env winner then (s, false)
          else ((addWinningMasternode orc env s winner).1, true)

def sign (env : Env) (winner : CMasternodePaymentWinner) : Option CMasternodePaymentWinner :=
  match env.activePubKey, env.signMessage (strMessage orc winner) with
  | some pubKey, some sig =>
    if orc.verifyMessage pubKey sig (strMessage orc winner) then
      some { winner with vchSig := sig }
    else none
  | _, _ => none

/-- `ProcessBlock`: the node's own vote. A budget block gets a winner without payee. -/
def processBlock (env : Env) (s : State) (nBlockHeight : ℤ) : Option State :=
  if !env.fMasterNode then some s
  else
    (activeProtocol env.sporks).map fun p =>
      let n := env.getMasternodeRank env.activeMasternode.prevout (nBlockHeight - 100) p
      if n = -1 then s
      else if signaturesTotal < n then s
      else if nBlockHeight ≤ s.nLastBlockHeight then s
      else
        let newWinner : CMasternodePaymentWinner :=
          if env.isBudgetPaymentBlock nBlockHeight then ⟨env.activeMasternode, 0, [], []⟩
          else
            match env.nextPayee nBlockHeight with
            | some payee => ⟨env.activeMasternode, nBlockHeight, payee, []⟩
            | none => ⟨env.activeMasternode, 0, [], []⟩
        match sign orc env newWinner with
        | none => s
        | some newWinner =>
          match addWinningMasternode orc env s newWinner with
          | (s, true) => { s with nLastBlockHeight := nBlockHeight }
          | (s, false) => s

/-- One turn of the loop of `CleanPaymentList`. -/
def cleanPayment (nHeight nLimit : ℤ) (s : State) (it : Uint256 × CMasternodePaymentWinner) :
    State :=
  if nLimit < nHeight - it.2.nBlockHeight then
    { s with
      mapMasternodePayeeVotes := s.mapMasternodePayeeVotes.erase it.1
      mapMasternodeBlocks := s.mapMasternodeBlocks.erase it.2.nBlockHeight }
  else s

def cleanPaymentList (env : Env) (s : State) : State :=
  match env.tip with
  | none => s
  | some nHeight =>
    let nLimit : ℤ := max (5 * env.size / 4 : ℕ) 1000
    s.mapMasternodePayeeVotes.toList.foldl (cleanPayment nHeight nLimit) s

inductive Event
  | mnw (winner : CMasternodePaymentWinner)
  | block (nBlockHeight : ℤ)
  | clean

/-- The node after one event; `none` once a call did not return. -/
def step (s : Option State) (e : Env × Event) : Option State :=
  s.bind fun s =>
    match e.2 with
    | .mnw winner => (processWinner orc e.1 s winner).map Prod.fst
    | .block nBlockHeight => processBlock orc e.1 s nBlockHeight
    | .clean => some (cleanPaymentList e.1 s)

/-- `AddWinningMasternode` is reached when the message arrives. -/
def reachesAdd (s : Option State) (env : Env) (winner : CMasternodePaymentWinner) : Bool :=
  match s.bind fun s => processWinner orc env s winner with
  | some (_, reached) => reached
  | none => false

end Scrypta.PaymentVotes
