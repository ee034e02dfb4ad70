import Scrypta.Script
import Scrypta.Spork

/-! Transaction locks. A request (`ix`) asks for a lock on the inputs of a transaction,
masternodes answer with votes (`txlvote`), and a lock with enough votes claims its inputs
in `mapLockedInputs`, which the mempool and block validation consult. The handlers are
translated with the maps they keep; what they send to peers and the reprocessing of
recent blocks touch none of these maps and are left out. -/

namespace Scrypta.SwiftTX

open Script Spork

def signaturesRequired : ℤ := 6
def signaturesTotal : ℤ := 10
def minSwiftTxProtoVersion : ℤ := 70103

structure CConsensusVote where
  vinMasternode : CTxIn
  txHash : Uint256
  nBlockHeight : ℤ
  vchMasterNodeSignature : Bytes
  deriving DecidableEq, Repr

namespace CConsensusVote

/-- The key of a vote: neither its height nor its signature enters. -/
def getHash (v : CConsensusVote) : Uint256 :=
  v.vinMasternode.prevout.hash + v.vinMasternode.prevout.n.setWidth 256 + v.txHash

def strMessage (v : CConsensusVote) : String :=
  v.txHash.toHex ++ toString v.nBlockHeight

end CConsensusVote

structure CTransactionLock where
  nBlockHeight : ℤ
  txHash : Uint256
  vecConsensusVotes : List CConsensusVote
  nExpiration : ℤ
  nTimeout : ℤ
  deriving DecidableEq, Repr

namespace CTransactionLock

def addSignature (l : CTransactionLock) (cv : CConsensusVote) : CTransactionLock :=
  { l with vecConsensusVotes := l.vecConsensusVotes ++ [cv] }

def countSignatures (l : CTransactionLock) : ℤ :=
  if l.nBlockHeight = 0 then -1
  else l.vecConsensusVotes.countP fun v => v.nBlockHeight = l.nBlockHeight

end CTransactionLock

/-- The maps of the lock protocol. -/
structure State where
  mapTxLockReq : Dict Uint256 CTransaction
  mapTxLockReqRejected : Dict Uint256 CTransaction
  mapTxLockVote : Dict Uint256 CConsensusVote
  mapTxLocks : Dict Uint256 CTransactionLock
  mapLockedInputs : Dict COutPoint Uint256
  mapUnknownVotes : Dict Uint256 ℤ
  nCompleteTXLocks : ℤ

def State.init : State := ⟨.empty, .empty, .empty, .empty, .empty, .empty, 0⟩

/-- What the rest of the node answers while one message is handled: its switches and
clock, the chain and the coins below the mempool, every test of `AcceptToMemoryPool` but
the one for locks, the masternode list, its own masternode key and its wallet. -/
structure Env where
  fLiteMode : Bool
  sporks : Sporks
  isBlockchainSynced : Bool
  tip : Option ℤ
  coinsHeight : Uint256 → Option ℤ
  getTransaction : Uint256 → Option CTransaction
  mempoolTakes : CTransaction → Bool
  getMasternodeRank : COutPoint → ℤ → ℤ → ℤ
  pubKeyMasternode : COutPoint → Option Bytes
  fMasterNode : Bool
  activeMasternode : CTxIn
  activePubKey : Option Bytes
  signMessage : String → Option Bytes
  updatedTransaction : Uint256 → Bool
  depthInMainChain : Uint256 → ℤ

def Env.getTime (env : Env) : ℤ := env.sporks.now

/-- `chainActive.Height()`, `-1` without a tip. -/
def Env.height (env : Env) : ℤ := env.tip.getD (-1)

/-- The guards at the head of `ProcessMessageSwiftTX`. -/
def Env.handles (env : Env) : Bool :=
  !env.fLiteMode && isSporkActive env.sporks spork2SwiftTx && env.isBlockchainSynced

def getInputAge (env : Env) (vin : CTxIn) : ℤ :=
  match env.coinsHeight vin.prevout.hash with
  | some nHeight => if nHeight < 0 then 0 else env.height + 1 - nHeight
  | none => -1

def isIXTXValid (env : Env) (tx : CTransaction) : Bool :=
  if tx.vout.length < 1 then false
  else if tx.nLockTime ≠ 0 then false
  else
    let nValueOut := (tx.vout.map (·.nValue)).sum
    let nValueIn := (tx.vin.map fun i =>
      match env.getTransaction i.prevout.hash with
      | some tx2 => ((tx2.vout[i.prevout.n.toNat]?).map (·.nValue)).getD 0
      | none => 0).sum
    let missingTx := tx.vin.any fun i => (env.getTransaction i.prevout.hash).isNone
    if getSporkValue env.sporks spork5MaxValue * coin < nValueOut then false
    else if missingTx then true
    else decide (coin / 100 ≤ nValueIn - nValueOut)

/-- The age of the inputs is read from the last one to the first, so the first one gives
the height; `none` when some input is too new. -/
def lockHeight (env : Env) (tx : CTransaction) : Option ℤ :=
  if tx.vin.any fun i => getInputAge env i < 5 then none
  else some (toInt32 (env.height - ((tx.vin.head?).map (getInputAge env)).getD 0 + 4))

def newLock (env : Env) (txHash : Uint256) (nBlockHeight : ℤ) : CTransactionLock where
  nBlockHeight := nBlockHeight
  txHash := txHash
  vecConsensusVotes := []
  nExpiration := toInt32 (env.getTime + 60 * 60)
  nTimeout := toInt32 (env.getTime + 60 * 5)

def createNewLock (env : Env) (s : State) (tx : CTransaction) : State × ℤ :=
  match lockHeight env tx with
  | none => (s, 0)
  | some nBlockHeight =>
    let locks :=
      if s.mapTxLocks.count tx.getHash then
        s.mapTxLocks.modify tx.getHash fun l => { l with nBlockHeight := nBlockHeight }
      else s.mapTxLocks.insert tx.getHash (newLock env tx.getHash nBlockHeight)
    ({ s with mapTxLocks := locks }, nBlockHeight)

/-- The lock that an input of `tx` already has under another transaction. -/
def conflictingLock (s : State) (tx : CTransaction) : Option Uint256 :=
  tx.vin.findSome? fun i =>
    match s.mapLockedInputs.find i.prevout with
    | some t => if t ≠ tx.getHash then some t else none
    | none => none

def acceptToMemoryPool (env : Env) (s : State) (tx : CTransaction) : Bool :=
  (conflictingLock s tx).isNone && env.mempoolTakes tx

/-- The scan for locked inputs in `CheckBlock`. -/
def checkBlockLocks (sporks : Sporks) (s : State) (vtx : List CTransaction) : Bool :=
  !isSporkActive sporks spork3SwiftTxBlockFiltering ||
    vtx.all fun tx => tx.isCoinBase || (conflictingLock s tx).isNone

def expire (env : Env) (l : CTransactionLock) : CTransactionLock :=
  { l with nExpiration := toInt32 env.getTime }

def checkForConflictingLocks (env : Env) (s : State) (tx : CTransaction) : State × Bool :=
  match conflictingLock s tx with
  | none => (s, false)
  | some other =>
    let locks := (s.mapTxLocks.modify tx.getHash (expire env)).modify other (expire env)
    ({ s with mapTxLocks := locks }, true)

section Messages

-- `CObfuScationSigner::VerifyMessage`: public key, signature, message.
variable (verifyMessage : Bytes → Bytes → String → Bool)

def signatureValid (env : Env) (ctx : CConsensusVote) : Bool :=
  match env.pubKeyMasternode ctx.vinMasternode.prevout with
  | none => false
  | some key => verifyMessage key ctx.vchMasterNodeSignature ctx.strMessage

def sign (env : Env) (ctx : CConsensusVote) : Option CConsensusVote :=
  match env.activePubKey, env.signMessage ctx.strMessage with
  | some pubkey2, some sig =>
    if verifyMessage pubkey2 sig ctx.strMessage then
      some { ctx with vchMasterNodeSignature := sig }
    else none
  | _, _ => none

def doConsensusVote (env : Env) (s : State) (tx : CTransaction) (nBlockHeight : ℤ) : State :=
  if !env.fMasterNode then s
  else
    let n := env.getMasternodeRank env.activeMasternode.prevout nBlockHeight
      minSwiftTxProtoVersion
    if n = -1 then s
    else if signaturesTotal < n then s
    else
      match sign verifyMessage env ⟨env.activeMasternode, tx.getHash, nBlockHeight, []⟩ with
      | none => s
      | some ctx =>
        if !signatureValid verifyMessage env ctx then s
        else { s with mapTxLockVote := s.mapTxLockVote.set ctx.getHash ctx }

/-- What `ProcessConsensusVote` does once the lock has its votes. Reading
`mapTxLockReq[txHash]` creates an empty transaction where there is none. -/
def lockInputs (env : Env) (s : State) (txHash : Uint256) : State :=
  let s := { s with mapTxLockReq := s.mapTxLockReq.insert txHash .null }
  let tx := (s.mapTxLockReq.find txHash).getD .null
  match checkForConflictingLocks env s tx with
  | (s, true) => s
  | (s, false) =>
    { s with
      nCompleteTXLocks := s.nCompleteTXLocks + if env.updatedTransaction txHash then 1 else 0
      mapLockedInputs :=
        if s.mapTxLockReq.count txHash then s.mapLockedInputs.insertAll tx.prevouts txHash
        else s.mapLockedInputs }

/-- The transaction lock that a vote is added to. -/
def compileVote (env : Env) (s : State) (ctx : CConsensusVote) : State :=
  let locks := s.mapTxLocks.insert ctx.txHash (newLock env ctx.txHash 0)
  { s with mapTxLocks := locks.modify ctx.txHash fun l => l.addSignature ctx }

def hasQuorum (s : State) (txHash : Uint256) : Bool :=
  match s.mapTxLocks.find txHash with
  | some l => decide (signaturesRequired ≤ l.countSignatures)
  | none => false

/-- A lock with its votes complete claims its inputs. -/
def settleLock (env : Env) (s : State) (txHash : Uint256) : State :=
  if hasQuorum s txHash then lockInputs env s txHash else s

def processConsensusVote (env : Env) (s : State) (ctx : CConsensusVote) : State × Bool :=
  let n := env.getMasternodeRank ctx.vinMasternode.prevout ctx.nBlockHeight
    minSwiftTxProtoVersion
  if n = -1 then (s, false)
  else if signaturesTotal < n then (s, false)
  else if !signatureValid verifyMessage env ctx then (s, false)
  else (settleLock env (compileVote env s ctx) ctx.txHash, true)

def getAverageVoteTime (m : Dict Uint256 ℤ) : ℤ :=
  (m.toList.map Prod.snd).sum.tdiv m.toList.length

/-- Spam protection for votes on a transaction that is not known yet. -/
def noteUnknownVote (env : Env) (m : Dict Uint256 ℤ) (hash : Uint256) : Dict Uint256 ℤ :=
  let m := m.insert hash (env.getTime + 60 * 10)
  let t := (m.find hash).getD 0
  if env.getTime < t ∧ 60 * 10 < t - getAverageVoteTime m then m
  else m.set hash (env.getTime + 60 * 10)

def processVote (env : Env) (s : State) (ctx : CConsensusVote) : State :=
  if s.mapTxLockVote.count ctx.getHash then s
  else
    let s := { s with mapTxLockVote := s.mapTxLockVote.insert ctx.getHash ctx }
    match processConsensusVote verifyMessage env s ctx with
    | (s, false) => s
    | (s, true) =>
      if !s.mapTxLockReq.count ctx.txHash && !s.mapTxLockReqRejected.count ctx.txHash then
        { s with mapUnknownVotes :=
            noteUnknownVote env s.mapUnknownVotes ctx.vinMasternode.prevout.hash }
      else s

/-- The tests of an `ix` message before the mempool is asked. -/
def ixWellFormed (env : Env) (s : State) (tx : CTransaction) : Bool :=
  !(s.mapTxLockReq.count tx.getHash || s.mapTxLockReqRejected.count tx.getHash) &&
    isIXTXValid env tx &&
    tx.vout.all fun o => isNormalPaymentScript o.scriptPubKey || isUnspendable o.scriptPubKey

/-- The branch of `ix` for a transaction that the mempool refuses. -/
def rejectRequest (env : Env) (s : State) (tx : CTransaction) : State :=
  let s := { s with
    mapTxLockReqRejected := s.mapTxLockReqRejected.insert tx.getHash tx
    mapLockedInputs := s.mapLockedInputs.insertAll tx.prevouts tx.getHash }
  if hasQuorum s tx.getHash then
    match checkForConflictingLocks env s tx with
    | (s, true) => s
    | (s, false) => { s with mapTxLockReq := s.mapTxLockReq.insert tx.getHash tx }
  else s

def processRequest (env : Env) (s : State) (tx : CTransaction) : State :=
  if !ixWellFormed env s tx then s
  else
    let (s, nBlockHeight) := createNewLock env s tx
    if acceptToMemoryPool env s tx then
      let s := doConsensusVote verifyMessage env s tx nBlockHeight
      { s with mapTxLockReq := s.mapTxLockReq.insert tx.getHash tx }
    else rejectRequest env s tx

/-- `RelayWalletTransaction` for the wallet's own request. -/
def relayWalletTransaction (env : Env) (s : State) (tx : CTransaction) : State :=
  if tx.isCoinBase then s
  else if env.depthInMainChain tx.getHash ≠ 0 then s
  else (createNewLock env { s with mapTxLockReq := s.mapTxLockReq.insert tx.getHash tx } tx).1

/-- One turn of the loop of `CleanTransactionLocksList`. -/
def cleanLock (env : Env) (s : State) (it : Uint256 × CTransactionLock) : State :=
  if env.getTime ≤ it.2.nExpiration then s
  else
    let s := match s.mapTxLockReq.find it.2.txHash with
      | some tx =>
        { s with
          mapLockedInputs := s.mapLockedInputs.eraseAll tx.prevouts
          mapTxLockReq := s.mapTxLockReq.erase it.2.txHash
          mapTxLockReqRejected := s.mapTxLockReqRejected.erase it.2.txHash
          mapTxLockVote :=
            s.mapTxLockVote.eraseAll (it.2.vecConsensusVotes.map CConsensusVote.getHash) }
      | none => s
    { s with mapTxLocks := s.mapTxLocks.erase it.1 }

def cleanTransactionLocksList (env : Env) (s : State) : State :=
  if env.tip.isNone then s else s.mapTxLocks.toList.foldl (cleanLock env) s

inductive Event
  | ix (tx : CTransaction)
  | txlvote (ctx : CConsensusVote)
  | wallet (tx : CTransaction)
  | clean

/-- One event in the environment in which it is handled. -/
def step (s : State) (e : Env × Event) : State :=
  match e.2 with
  | .ix tx => if e.1.handles then processRequest verifyMessage e.1 s tx else s
  | .txlvote ctx => if e.1.handles then processVote verifyMessage e.1 s ctx else s
  | .wallet tx => relayWalletTransaction e.1 s tx
  | .clean => cleanTransactionLocksList e.1 s

end Messages

end Scrypta.SwiftTX
