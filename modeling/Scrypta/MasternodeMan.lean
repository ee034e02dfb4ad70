import Scrypta.MasternodeTexts
import Scrypta.Toolkit.Dict

/-! The masternode list. Broadcasts (`mnb`) announce a masternode or renew its entry, pings (`mnp`)
keep the entry alive; both are remembered by their hash when they arrive. -/

namespace Scrypta.Masternodes

def minConfirmations : ℤ := 15
def minMnpSeconds : ℤ := 10 * 60
def minMnbSeconds : ℤ := 5 * 60
def expirationSeconds : ℤ := 120 * 60
def removalSeconds : ℤ := 130 * 60
def checkSeconds : ℤ := 5

structure CMasternodePing where
  vin : CTxIn
  blockHash : Uint256
  sigTime : ℤ
  vchSig : Bytes
  deriving DecidableEq

/-- `activeState` -/
inductive State
  | preEnabled
  | enabled
  | expired
  | outpointSpent
  | remove
  | watchdogExpired
  | poseBan
  | vinSpent
  | posError
  deriving DecidableEq

structure CMasternode where
  lastTimeChecked : ℤ
  vin : CTxIn
  addr : CService
  pubKeyCollateralAddress : CPubKey
  pubKeyMasternode : CPubKey
  sig : Bytes
  activeState : State
  sigTime : ℤ
  unitTest : Bool
  protocolVersion : ℤ
  lastPing : CMasternodePing
  deriving DecidableEq

structure CMasternodeBroadcast where
  vin : CTxIn
  addr : CService
  pubKeyCollateralAddress : CPubKey
  pubKeyMasternode : CPubKey
  sig : Bytes
  sigTime : ℤ
  protocolVersion : ℤ
  lastPing : CMasternodePing
  deriving DecidableEq

/-- What a check of inputs or of a message answers: a refusal carries the misbehaviour score. -/
inductive Verdict
  | ok
  | refused (nDos : ℕ)
  deriving DecidableEq

/-- What the rest of the node answers while one event is handled. `confirmTime` is the time of the
block in which a transaction got `MASTERNODE_MIN_CONFIRMATIONS`, if its block is known. -/
structure Env where
  shutdownRequested : Bool
  fLiteMode : Bool
  isBlockchainSynced : Bool
  isMain : Bool
  now : ℤ
  adjustedTime : ℤ
  minMasternodePaymentsProto : ℤ
  height : ℤ
  blockHeight : Uint256 → Option ℤ
  lockMain : Bool
  acceptableInputs : CTxIn → Verdict
  getInputAge : CTxIn → ℤ
  getTransaction : Uint256 → Option (List CTxOut)
  collateral : CAmount
  confirmTime : Uint256 → Option ℤ
  fMasterNode : Bool
  activePubKeyMasternode : CPubKey
  protocolVersion : ℤ

/-- The list with the two maps of messages, and the input of the node's own masternode. -/
structure CMasternodeMan where
  vMasternodes : List CMasternode
  mapSeenMasternodeBroadcast : Dict Uint256 CMasternodeBroadcast
  mapSeenMasternodePing : Dict Uint256 CMasternodePing
  activeVin : CTxIn

namespace CMasternodePing

/-- The default constructor. -/
def empty : CMasternodePing := ⟨⟨.null, [], BitVec.allOnes 32⟩, 0, 0, []⟩

/-- `mnp == CMasternodePing()`; times and signatures are not compared. -/
def isEmpty (mnp : CMasternodePing) : Bool :=
  mnp.vin == empty.vin && mnp.blockHash == empty.blockHash

variable (orc : Oracles)

def getHash (mnp : CMasternodePing) : Uint256 := orc.hashPing mnp.vin mnp.sigTime

def strMessage (mnp : CMasternodePing) : String :=
  txInToString orc mnp.vin ++ mnp.blockHash.toHex ++ toString mnp.sigTime

end CMasternodePing

namespace CMasternode

def isEnabled (mn : CMasternode) : Bool := mn.activeState == .enabled

def isBroadcastedWithin (env : Env) (mn : CMasternode) (seconds : ℤ) : Bool :=
  decide (env.adjustedTime - mn.sigTime < seconds)

/-- The time `-1` stands for the clock. -/
def isPingedWithin (env : Env) (mn : CMasternode) (seconds : ℤ) (now : ℤ) : Bool :=
  !mn.lastPing.isEmpty &&
    decide ((if now = -1 then env.adjustedTime else now) - mn.lastPing.sigTime < seconds)

/-- The state after the tests of `Check`, which end early when the main lock is taken. -/
def checkedState (env : Env) (mn : CMasternode) : State :=
  if mn.activeState = .vinSpent then .vinSpent
  else if !mn.isPingedWithin env removalSeconds (-1) then .remove
  else if !mn.isPingedWithin env expirationSeconds (-1) then .expired
  else if mn.unitTest then .enabled
  else if !env.lockMain then mn.activeState
  else match env.acceptableInputs mn.vin with
    | .refused _ => .vinSpent
    | .ok => .enabled

def check (env : Env) (forceCheck : Bool) (mn : CMasternode) : CMasternode :=
  if env.shutdownRequested then mn
  else if !forceCheck && decide (env.now - mn.lastTimeChecked < checkSeconds) then mn
  else { mn with lastTimeChecked := env.now, activeState := mn.checkedState env }

def withPing (mnp : CMasternodePing) (mn : CMasternode) : CMasternode := { mn with lastPing := mnp }

/-- The entry made from a broadcast. -/
def ofBroadcast (mnb : CMasternodeBroadcast) : CMasternode where
  lastTimeChecked := 0
  vin := mnb.vin
  addr := mnb.addr
  pubKeyCollateralAddress := mnb.pubKeyCollateralAddress
  pubKeyMasternode := mnb.pubKeyMasternode
  sig := mnb.sig
  activeState := .enabled
  sigTime := mnb.sigTime
  unitTest := false
  protocolVersion := mnb.protocolVersion
  lastPing := mnb.lastPing

end CMasternode

namespace CMasternodeMan

def init : CMasternodeMan := ⟨[], .empty, .empty, ⟨.null, [], BitVec.allOnes 32⟩⟩

def find (s : CMasternodeMan) (prevout : COutPoint) : Option CMasternode :=
  s.vMasternodes.find? fun mn => mn.vin.prevout = prevout

/-- Change the entry that `Find` points to. -/
def changeFirst (prevout : COutPoint) (f : CMasternode → CMasternode) :
    List CMasternode → List CMasternode
  | [] => []
  | mn :: rest =>
    if mn.vin.prevout = prevout then f mn :: rest else mn :: changeFirst prevout f rest

def change (s : CMasternodeMan) (prevout : COutPoint) (f : CMasternode → CMasternode) :
    CMasternodeMan :=
  { s with vMasternodes := changeFirst prevout f s.vMasternodes }

def remove (s : CMasternodeMan) (vin : CTxIn) : CMasternodeMan :=
  { s with vMasternodes := s.vMasternodes.eraseP fun mn => mn.vin = vin }

def add (s : CMasternodeMan) (mn : CMasternode) : CMasternodeMan :=
  if !mn.isEnabled then s
  else match s.find mn.vin.prevout with
    | none => { s with vMasternodes := s.vMasternodes ++ [{ mn with lastTimeChecked := 0 }] }
    | some _ => s

end CMasternodeMan

section Pings

variable (orc : Oracles) (env : Env)

/-- The ping becomes the last ping of the entry, and of the broadcast that made the entry. -/
def CMasternodeMan.storePing (s : CMasternodeMan) (pmn : CMasternode) (mnp : CMasternodePing) :
    CMasternodeMan :=
  { s.change mnp.vin.prevout (·.withPing mnp) with
    mapSeenMasternodeBroadcast := s.mapSeenMasternodeBroadcast.modify
      (orc.hashBroadcast pmn.sigTime pmn.pubKeyCollateralAddress) fun mnb =>
        { mnb with lastPing := mnp } }

/-- `CMasternodePing::CheckAndUpdate` -/
def CMasternodePing.checkAndUpdate (s : CMasternodeMan) (mnp : CMasternodePing)
    (fRequireEnabled : Bool) : CMasternodeMan × Verdict :=
  if env.adjustedTime + 60 * 60 < mnp.sigTime then (s, .refused 1)
  else if mnp.sigTime ≤ env.adjustedTime - 60 * 60 then (s, .refused 1)
  else match s.find mnp.vin.prevout with
    | none => (s, .refused 0)
    | some pmn =>
      if pmn.protocolVersion < env.minMasternodePaymentsProto then (s, .refused 0)
      else if fRequireEnabled && !pmn.isEnabled then (s, .refused 0)
      else if pmn.isPingedWithin env (minMnpSeconds - 60) mnp.sigTime then (s, .refused 0)
      else if !orc.verifyMessage pmn.pubKeyMasternode mnp.vchSig (mnp.strMessage orc) then
        (s, .refused 33)
      else match env.blockHeight mnp.blockHash with
        | none => (s, .refused 0)
        | some nHeight =>
          if nHeight < env.height - 24 then (s, .refused 0)
          else
            let s := (s.storePing orc pmn mnp).change mnp.vin.prevout (·.check env true)
            if (s.find mnp.vin.prevout).any CMasternode.isEnabled then (s, .ok)
            else (s, .refused 0)

end Pings

namespace CMasternodeBroadcast

variable (orc : Oracles) (env : Env)

def getHash (mnb : CMasternodeBroadcast) : Uint256 :=
  orc.hashBroadcast mnb.sigTime mnb.pubKeyCollateralAddress

def strMessage (mnb : CMasternodeBroadcast) : String :=
  mnb.addr.toString orc ++ toString mnb.sigTime ++ bytesToString mnb.pubKeyCollateralAddress.vch ++
    bytesToString mnb.pubKeyMasternode.vch ++ toString mnb.protocolVersion

/-- `GetScriptForDestination(pubkey.GetID())` -/
def payeeScript (pubkey : CPubKey) : CScript :=
  [Script.opDup, Script.opHash160, 20] ++
    (List.range 20).map (fun i => UInt8.ofNat ((orc.keyID pubkey).toNat / 256 ^ i)) ++
    [Script.opEqualVerify, Script.opCheckSig]

/-- The fields that an entry takes over from a newer broadcast. -/
def renew (mnb : CMasternodeBroadcast) (mn : CMasternode) : CMasternode :=
  { mn with
    pubKeyMasternode := mnb.pubKeyMasternode
    pubKeyCollateralAddress := mnb.pubKeyCollateralAddress
    sigTime := mnb.sigTime
    sig := mnb.sig
    protocolVersion := mnb.protocolVersion
    addr := mnb.addr
    lastTimeChecked := 0 }

/-- The entry takes the ping of the broadcast over. -/
def takePing (s : CMasternodeMan) (mnb : CMasternodeBroadcast) : CMasternodeMan :=
  { s.change mnb.vin.prevout (·.withPing mnb.lastPing) with
    mapSeenMasternodePing :=
      s.mapSeenMasternodePing.insert (mnb.lastPing.getHash orc) mnb.lastPing }

/-- `CMasternode::UpdateFromNewBroadcast` on the entry `pmn` of the outpoint. -/
def updateEntry (s : CMasternodeMan) (pmn : CMasternode) (mnb : CMasternodeBroadcast) :
    CMasternodeMan × Bool :=
  if pmn.sigTime < mnb.sigTime then
    let s := s.change mnb.vin.prevout mnb.renew
    if mnb.lastPing.isEmpty then (mnb.takePing orc s, true)
    else match mnb.lastPing.checkAndUpdate orc env s false with
      | (s, .ok) => (mnb.takePing orc s, true)
      | (s, .refused _) => (s, true)
  else (s, false)

/-- The port of the network; other ports are refused on the main network, this one elsewhere. -/
def portAllowed (mnb : CMasternodeBroadcast) : Bool :=
  if env.isMain then mnb.addr.port == 42222 else mnb.addr.port != 42222

/-- The last part of `CheckAndUpdate`: an enabled entry takes a newer broadcast over. -/
def updateListed (s : CMasternodeMan) (mnb : CMasternodeBroadcast) : CMasternodeMan × Verdict :=
  match s.find mnb.vin.prevout with
  | none => (s, .ok)
  | some pmn =>
    if mnb.sigTime < pmn.sigTime then (s, .refused 0)
    else if !pmn.isEnabled then (s, .ok)
    else if pmn.pubKeyCollateralAddress = mnb.pubKeyCollateralAddress ∧
        !pmn.isBroadcastedWithin env minMnbSeconds then
      match mnb.updateEntry orc env s pmn with
      | (s, true) => (s.change mnb.vin.prevout (·.check env false), .ok)
      | (s, false) => (s, .ok)
    else (s, .ok)

/-- `CMasternodeBroadcast::CheckAndUpdate` -/
def checkAndUpdate (s : CMasternodeMan) (mnb : CMasternodeBroadcast) : CMasternodeMan × Verdict :=
  if env.adjustedTime + 60 * 60 < mnb.sigTime then (s, .refused 1)
  else if mnb.protocolVersion < env.minMasternodePaymentsProto then (s, .refused 0)
  else if (payeeScript orc mnb.pubKeyCollateralAddress).length ≠ 25 then (s, .refused 100)
  else if (payeeScript orc mnb.pubKeyMasternode).length ≠ 25 then (s, .refused 100)
  else if !mnb.vin.scriptSig.isEmpty then (s, .refused 0)
  else if !orc.verifyMessage mnb.pubKeyCollateralAddress mnb.sig (mnb.strMessage orc) then
    (s, .refused 100)
  else if !mnb.portAllowed env then (s, .refused 0)
  else mnb.updateListed orc env s

/-- `IsVinAssociatedWithPubkey`: some output of the transaction, not necessarily the one named. -/
def isVinAssociatedWithPubkey (vin : CTxIn) (pubkey : CPubKey) : Bool :=
  match env.getTransaction vin.prevout.hash with
  | none => false
  | some vout => vout.any fun out =>
      out.nValue == env.collateral && out.scriptPubKey == payeeScript orc pubkey

/-- The message can be handled again. -/
def forget (s : CMasternodeMan) (mnb : CMasternodeBroadcast) : CMasternodeMan :=
  { s with mapSeenMasternodeBroadcast := s.mapSeenMasternodeBroadcast.erase (mnb.getHash orc) }

/-- The last part of `CheckInputsAndAdd`, after an entry that is not enabled was removed. -/
def addNew (s : CMasternodeMan) (mnb : CMasternodeBroadcast) : CMasternodeMan × Verdict :=
  if !env.lockMain then (mnb.forget orc s, .refused 0)
  else match env.acceptableInputs mnb.vin with
    | .refused nDos => (s, .refused nDos)
    | .ok =>
      if env.getInputAge mnb.vin < minConfirmations then (mnb.forget orc s, .refused 0)
      else if (env.confirmTime mnb.vin.prevout.hash).any fun t => decide (mnb.sigTime < t) then
        (s, .refused 0)
      else
        let s := s.add (.ofBroadcast mnb)
        -- the node is activated by its owner
        if env.fMasterNode && mnb.pubKeyMasternode == env.activePubKeyMasternode &&
            mnb.protocolVersion == env.protocolVersion then
          ({ s with activeVin := mnb.vin }, .ok)
        else (s, .ok)

/-- `CMasternodeBroadcast::CheckInputsAndAdd` -/
def checkInputsAndAdd (s : CMasternodeMan) (mnb : CMasternodeBroadcast) :
    CMasternodeMan × Verdict :=
  if env.fMasterNode && mnb.vin.prevout == s.activeVin.prevout &&
      mnb.pubKeyMasternode == env.activePubKeyMasternode then (s, .ok)
  else match s.find mnb.vin.prevout with
    | none => mnb.addNew orc env s
    | some pmn => if pmn.isEnabled then (s, .ok) else mnb.addNew orc env (s.remove pmn.vin)

end CMasternodeBroadcast

section Runs

variable (orc : Oracles)

/-- The `mnb` message. -/
def processBroadcast (env : Env) (s : CMasternodeMan) (mnb : CMasternodeBroadcast) :
    CMasternodeMan × Verdict :=
  if s.mapSeenMasternodeBroadcast.count (mnb.getHash orc) then (s, .ok)
  else
    let s := { s with
      mapSeenMasternodeBroadcast := s.mapSeenMasternodeBroadcast.insert (mnb.getHash orc) mnb }
    match mnb.checkAndUpdate orc env s with
    | (s, .refused nDos) => (s, .refused nDos)
    | (s, .ok) =>
      if !CMasternodeBroadcast.isVinAssociatedWithPubkey orc env mnb.vin
          mnb.pubKeyCollateralAddress then (s, .refused 33)
      else mnb.checkInputsAndAdd orc env s

/-- The `mnp` message. -/
def processPing (env : Env) (s : CMasternodeMan) (mnp : CMasternodePing) :
    CMasternodeMan × Verdict :=
  if s.mapSeenMasternodePing.count (mnp.getHash orc) then (s, .ok)
  else
    mnp.checkAndUpdate orc env { s with
      mapSeenMasternodePing := s.mapSeenMasternodePing.insert (mnp.getHash orc) mnp } true

/-- `CMasternodeMan::Check` -/
def checkAll (env : Env) (s : CMasternodeMan) : CMasternodeMan :=
  { s with vMasternodes := s.vMasternodes.map (·.check env false) }

/-- What `CheckAndRemove` takes off the list. -/
def removable (env : Env) (forceExpiredRemoval : Bool) (mn : CMasternode) : Bool :=
  mn.activeState == .remove || mn.activeState == .vinSpent ||
    forceExpiredRemoval && mn.activeState == .expired ||
    decide (mn.protocolVersion < env.minMasternodePaymentsProto)

def checkAndRemove (env : Env) (s : CMasternodeMan) (forceExpiredRemoval : Bool) :
    CMasternodeMan :=
  let s := checkAll env s
  let removed := s.vMasternodes.filter (removable env forceExpiredRemoval)
  { s with
    vMasternodes := s.vMasternodes.filter fun mn => !removable env forceExpiredRemoval mn
    mapSeenMasternodeBroadcast :=
      (s.mapSeenMasternodeBroadcast.eraseWhere fun mnb =>
        removed.any fun mn => mnb.vin = mn.vin).eraseWhere fun mnb =>
          decide (mnb.lastPing.sigTime < env.now - removalSeconds * 2)
    mapSeenMasternodePing := s.mapSeenMasternodePing.eraseWhere fun mnp =>
      decide (mnp.sigTime < env.now - removalSeconds * 2) }

inductive Input
  | mnb (mnb : CMasternodeBroadcast)
  | mnp (mnp : CMasternodePing)
  | check
  | checkAndRemove (forceExpiredRemoval : Bool)

def step (s : CMasternodeMan) (e : Env × Input) : CMasternodeMan :=
  match e.2 with
  | .mnb mnb =>
    if e.1.fLiteMode || !e.1.isBlockchainSynced then s else (processBroadcast orc e.1 s mnb).1
  | .mnp mnp =>
    if e.1.fLiteMode || !e.1.isBlockchainSynced then s else (processPing orc e.1 s mnp).1
  | .check => checkAll e.1 s
  | .checkAndRemove forceExpiredRemoval => checkAndRemove e.1 s forceExpiredRemoval

end Runs

end Scrypta.Masternodes
