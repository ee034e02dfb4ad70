import Scrypta.CheckBlock
import Scrypta.Obfuscation
import Scrypta.SignTransaction
import Scrypta.Toolkit.Binary64
import Scrypta.Toolkit.Runs

/-! The mixing pool of a masternode. Clients join a session with `dsa`, hand in their inputs and
outputs with `dsi` and their signatures with `dss`; a thread of the node looks for what has timed
out. -/

namespace Scrypta.Mixing

open Interpreter (Hashes)
open SignatureHash (CMutableTransaction)
open Signing (Scheme toTransaction)
open Validation (checkTransaction)

/-- An input of an entry, with the flag that it is signed. -/
structure CTxDSIn extends Obfuscation.CTxDSIn where
  fHasSig : Bool := false
  deriving DecidableEq, Repr

/-- The public key script is not part of an input that comes over the network. -/
def CTxDSIn.ofTxIn (txin : CTxIn) : CTxDSIn := ⟨⟨txin, []⟩, false⟩

structure CObfuScationEntry where
  sev : List CTxDSIn
  vout : List CTxOut
  amount : CAmount
  collateral : CTransaction
  addedTime : ℤ
  deriving DecidableEq, Repr

inductive PoolStatus
  | unknown
  | idle
  | queue
  | acceptingEntries
  | finalizeTransaction
  | signing
  | transmission
  | error
  | success
  deriving DecidableEq, Repr

/-- The numbers that a status update carries. -/
inductive Message
  | errAlreadyHave
  | errDenom
  | errEntriesFull
  | errExistingTx
  | errFees
  | errInvalidCollateral
  | errInvalidInput
  | errInvalidScript
  | errInvalidTx
  | errMaximum
  | errMnList
  | errMode
  | errNonStandardPubKey
  | errNotAMn
  | errQueueFull
  | errRecent
  | errSession
  | errMissingTx
  | errVersion
  | msgNoErr
  | msgSuccess
  | msgEntriesAdded
  deriving DecidableEq, Repr

/-- The masternode's side of the pool. Times are in milliseconds. -/
structure CObfuscationPool where
  entries : List CObfuScationEntry := []
  finalTransaction : CMutableTransaction := ⟨1, [], [], 0⟩
  lastTimeChanged : ℤ := 0
  state : PoolStatus := .idle
  sessionID : ℤ := 0
  sessionUsers : ℤ := 0
  vecSessionCollateral : List CTransaction := []
  sessionDenom : ℤ := 0

/-- `std::random_shuffle` puts a list into some order. -/
structure Shuffle (α : Type) where
  shuffle : List α → List α
  perm : ∀ l, (shuffle l).Perm l

/-- What does not change while the node runs. The pool takes three transactions on the main network
and two on the test network. -/
structure Node where
  par : Validation.Params
  nPoolMaxTransactions : ℕ
  nPoolMaxTransactions_pos : 1 ≤ nPoolMaxTransactions
  hashes : Hashes
  sch : Scheme

/-- What the rest of the node answers at the time of an event: the clock, the state of the own
masternode in the list (`nLastDsq`), the transactions it knows, what is left of
`AcceptableInputs` after `CheckTransaction` (with `fLimitFree` and `isDSTX`), whether the final
transaction enters the memory pool and can be signed for, and the outcomes of chance. -/
structure Moment where
  nTime : ℤ
  nTimeMillis : ℤ
  activeProtocol : ℤ
  nLastDsq : Option ℤ
  nDsqCount : ℤ
  countEnabled : ℤ
  getTransaction : Uint256 → Option CTransaction
  inputsAcceptable : CTransaction → Bool → Bool → Bool
  acceptToMemoryPool : CMutableTransaction → Bool
  signsFinal : Bool
  rand : ℕ
  shuffleVin : Shuffle CTxIn
  shuffleVout : Shuffle CTxOut

/-- A `dssu` answer. -/
structure StatusUpdate where
  sessionID : ℤ
  state : PoolStatus
  entriesCount : ℕ
  accepted : Bool
  errorID : Option Message
  deriving DecidableEq, Repr

def obfuscationCollateral : CAmount := 10 * coin
def obfuscationPoolMax : CAmount := 9999999000000
def obfuscationQueueTimeout : ℤ := 30
def obfuscationSigningTimeout : ℤ := 15

def obfuScationDenominations : List CAmount :=
  [10000 * coin + 10000000, 1000 * coin + 1000000, 100 * coin + 100000, 10 * coin + 10000,
    coin + 1000, coin / 10 + 100]

/-- The denominations of the outputs as bits; 0 when an output is of none of them. -/
def getDenominations (vout : List CTxOut) : ℕ :=
  if vout.all fun out => obfuScationDenominations.contains out.nValue then
    (List.range obfuScationDenominations.length).foldl (fun denom c =>
      if vout.any fun out => obfuScationDenominations[c]? == some out.nValue then
        denom ||| 1 <<< c
      else denom) 0
  else 0

namespace CObfuscationPool

/-- On a masternode the states of a client's failure and success are not taken. -/
def updateState (m : Moment) (newState : PoolStatus) (pool : CObfuscationPool) :
    CObfuscationPool :=
  if newState = .error ∨ newState = .success then pool
  else
    { pool with
      state := newState
      lastTimeChanged := if pool.state ≠ newState then m.nTimeMillis else pool.lastTimeChanged }

def setNull (m : Moment) (pool : CObfuscationPool) : CObfuscationPool :=
  { finalTransaction := { pool.finalTransaction with vin := [], vout := [] }
    lastTimeChanged := m.nTimeMillis }

def status (pool : CObfuscationPool) (accepted : Bool) (errorID : Option Message) :
    StatusUpdate :=
  ⟨pool.sessionID, pool.state, pool.entries.length, accepted, errorID⟩

def isSessionReady (node : Node) (pool : CObfuscationPool) : Bool :=
  decide ((node.nPoolMaxTransactions : ℤ) ≤ pool.sessionUsers)

def isCompatibleWithEntries (vout : List CTxOut) (pool : CObfuscationPool) : Bool :=
  getDenominations vout != 0 &&
    pool.entries.all fun v => getDenominations vout == getDenominations v.vout

end CObfuscationPool

section Checks

variable (node : Node) (m : Moment)

def acceptableInputs (tx : CTransaction) (fLimitFree isDSTX : Bool) : Bool :=
  decide (checkTransaction node.par tx = .ok ()) && !tx.isCoinBase &&
    m.inputsAcceptable tx fLimitFree isDSTX

/-- The value of the known outputs that the inputs spend; nothing if a transaction is missing. -/
def valueIn (vin : List CTxIn) : Option CAmount :=
  vin.foldlM (fun nValueIn txin =>
    (m.getTransaction txin.prevout.hash).map fun tx =>
      match tx.vout[txin.prevout.n.toNat]? with
      | some out => nValueIn + out.nValue
      | none => nValueIn) 0

def valueOut (vout : List CTxOut) : CAmount := (vout.map (·.nValue)).sum

def isCollateralValid (txCollateral : CTransaction) : Bool :=
  !txCollateral.vout.isEmpty && txCollateral.nLockTime == 0 &&
    (txCollateral.vout.all fun o => Script.isNormalPaymentScript o.scriptPubKey) &&
    (match valueIn m txCollateral.vin with
      | none => false
      | some nValueIn => decide (obfuscationCollateral ≤ nValueIn - valueOut txCollateral.vout)) &&
    acceptableInputs node m txCollateral true false

/-! Joining. -/

/-- The pool afterwards, whether the client may join, and the error if one is set. -/
def isCompatibleWithSession (nDenom : ℤ) (txCollateral : CTransaction)
    (pool : CObfuscationPool) : CObfuscationPool × Bool × Option Message :=
  if nDenom = 0 then (pool, false, none)
  else if !isCollateralValid node m txCollateral then
    (pool, false, some .errInvalidCollateral)
  else
    let pool := if pool.sessionUsers < 0 then { pool with sessionUsers := 0 } else pool
    if pool.sessionUsers = 0 then
      let pool := { pool with
        sessionID := 1 + (m.rand % 999999 : ℕ)
        sessionDenom := nDenom
        sessionUsers := pool.sessionUsers + 1
        lastTimeChanged := m.nTimeMillis }
      let pool := pool.updateState m .queue
      ({ pool with vecSessionCollateral := pool.vecSessionCollateral ++ [txCollateral] }, true,
        none)
    else if (pool.state ≠ .acceptingEntries ∧ pool.state ≠ .queue) ∨
        (node.nPoolMaxTransactions : ℤ) ≤ pool.sessionUsers then
      (pool, false, if (node.nPoolMaxTransactions : ℤ) ≤ pool.sessionUsers then some .errQueueFull
        else some .errMode)
    else if nDenom ≠ pool.sessionDenom then (pool, false, some .errDenom)
    else
      ({ pool with
        sessionUsers := pool.sessionUsers + 1
        lastTimeChanged := m.nTimeMillis
        vecSessionCollateral := pool.vecSessionCollateral ++ [txCollateral] }, true, none)

/-- The `dsa` message of a peer of version `nVersion`. -/
def processDsa (nVersion nDenom : ℤ) (txCollateral : CTransaction) (pool : CObfuscationPool) :
    CObfuscationPool × StatusUpdate :=
  if nVersion < m.activeProtocol then (pool, pool.status false (some .errVersion))
  else
    match m.nLastDsq with
    | none => (pool, pool.status false (some .errMnList))
    | some nLastDsq =>
      if pool.sessionUsers = 0 ∧ nLastDsq ≠ 0 ∧
          m.nDsqCount < nLastDsq + m.countEnabled.tdiv 5 then
        (pool, pool.status false (some .errRecent))
      else
        let (pool, compatible, errorID) := isCompatibleWithSession node m nDenom txCollateral pool
        (pool, pool.status compatible errorID)

/-! The final transaction. -/

def signaturesComplete (pool : CObfuscationPool) : Bool :=
  pool.entries.all fun v => v.sev.all fun s => s.fHasSig

def checkFinalTransaction (pool : CObfuscationPool) : CObfuscationPool :=
  if !m.acceptToMemoryPool pool.finalTransaction then
    (pool.setNull m).updateState m .acceptingEntries
  else if !m.signsFinal then pool
  else pool.setNull m

/-- The inputs and outputs of the entries in a random order. -/
def finalize (pool : CObfuscationPool) : CMutableTransaction :=
  ⟨1, m.shuffleVin.shuffle (pool.entries.flatMap fun v => v.sev.map fun s => s.toCTxIn),
    m.shuffleVout.shuffle (pool.entries.flatMap fun v => v.vout), 0⟩

def check (pool : CObfuscationPool) : CObfuscationPool :=
  let pool :=
    if pool.state = .acceptingEntries ∧ node.nPoolMaxTransactions ≤ pool.entries.length then
      pool.updateState m .finalizeTransaction
    else pool
  let pool :=
    if pool.state = .finalizeTransaction then
      { pool.updateState m .signing with finalTransaction := finalize m pool }
    else pool
  let pool :=
    if pool.state = .signing ∧ signaturesComplete pool = true then
      checkFinalTransaction m (pool.updateState m .transmission)
    else pool
  if (pool.state = .error ∨ pool.state = .success) ∧
      10000 ≤ m.nTimeMillis - pool.lastTimeChanged then
    pool.setNull m
  else pool

/-! Handing in. -/

/-- The contents of a `dsi` message. -/
structure Dsi where
  vin : List CTxIn
  nAmount : CAmount
  txCollateral : CTransaction
  vout : List CTxOut

/-- The first output whose script is refused. -/
def checkScripts : List CTxOut → Option Message
  | [] => none
  | o :: rest =>
    if o.scriptPubKey.length ≠ 25 then some .errNonStandardPubKey
    else if !Script.isNormalPaymentScript o.scriptPubKey then some .errInvalidScript
    else checkScripts rest

/-- The fee is more than a hundredth, in doubles. -/
def feesTooHigh (nValueIn nValueOut : CAmount) : Bool :=
  decide (Binary64.mul (Binary64.ofInt nValueIn) (Binary64.literal 1 100) <
    Binary64.ofInt (nValueIn - nValueOut))

/-- The value of the inputs that are known, also when others are missing. -/
def knownValueIn (vin : List CTxIn) : CAmount :=
  (vin.map fun txin => match (m.getTransaction txin.prevout.hash).bind
      fun tx => tx.vout[txin.prevout.n.toNat]? with
    | some out => out.nValue
    | none => 0).sum

/-- Why the message is refused before it comes to the pool. -/
def refusesDsi (nVersion : ℤ) (msg : Dsi) (pool : CObfuscationPool) : Option Message :=
  if nVersion < m.activeProtocol then some .errVersion
  else if !pool.isSessionReady node then some .errSession
  else if !pool.isCompatibleWithEntries msg.vout then some .errExistingTx
  else
    match checkScripts msg.vout with
    | some errorID => some errorID
    | none =>
      if obfuscationPoolMax < knownValueIn m msg.vin then some .errMaximum
      else
        match valueIn m msg.vin with
        | none => some .errMissingTx
        | some nValueIn =>
          if feesTooHigh nValueIn (valueOut msg.vout) then some .errFees
          else if !acceptableInputs node m (toTransaction node.hashes ⟨1, msg.vin, msg.vout, 0⟩)
              false true then some .errInvalidTx
          else none

/-- `CObfuScationEntry::Add`. -/
def Dsi.entry (msg : Dsi) : CObfuScationEntry where
  sev := msg.vin.map CTxDSIn.ofTxIn
  vout := msg.vout
  amount := msg.nAmount
  collateral := msg.txCollateral
  addedTime := m.nTime

/-- Every refusal takes a user off the session. -/
def addEntry (msg : Dsi) (pool : CObfuscationPool) : CObfuscationPool × Bool × Message :=
  let refused := { pool with sessionUsers := pool.sessionUsers - 1 }
  if msg.vin.any fun txin => txin.prevout.isNull || decide (msg.nAmount < 0) then
    (refused, false, .errInvalidInput)
  else if !isCollateralValid node m msg.txCollateral then (refused, false, .errInvalidCollateral)
  else if node.nPoolMaxTransactions ≤ pool.entries.length then (refused, false, .errEntriesFull)
  else if msg.vin.any fun txin => pool.entries.any fun v => v.sev.any fun s =>
      decide (s.toCTxIn = txin) then
    (refused, false, .errAlreadyHave)
  else
    ({ pool with entries := pool.entries ++ [msg.entry m] }, true, .msgEntriesAdded)

def processDsi (nVersion : ℤ) (msg : Dsi) (pool : CObfuscationPool) :
    CObfuscationPool × StatusUpdate :=
  match refusesDsi node m nVersion msg pool with
  | some errorID => (pool, pool.status false (some errorID))
  | none =>
    let (pool, added, errorID) := addEntry node m msg pool
    (if added then check node m pool else pool, pool.status added (some errorID))

/-! Signing. -/

/-- `VerifyScript` with the flags of the pool and the checker for an input. -/
def verifies (scriptSig scriptPubKey : CScript) (txTo : CMutableTransaction) (nIn : ℕ) : Bool :=
  match (Interpreter.verifyScript ⟨node.hashes, Signing.checkSig node.hashes node.sch txTo nIn,
    Interpreter.scriptVerifyP2SH ||| Interpreter.scriptVerifyStrictEnc⟩ scriptSig
      scriptPubKey).outcome with
  | .ok () => true
  | .error _ => false

/-- The last input of the entries that equals the new one is checked, in a transaction in the
order of the entries; where there is none, the signature counts as valid. -/
def signatureValid (newSig : CScript) (newVin : CTxIn) (pool : CObfuscationPool) : Bool :=
  let sev := pool.entries.flatMap fun e => e.sev
  let txNew : CMutableTransaction :=
    ⟨1, sev.map fun s => s.toCTxIn, pool.entries.flatMap fun e => e.vout, 0⟩
  let found := (List.range sev.length).foldl (fun found i =>
    match sev[i]? with
    | some s => if s.toCTxIn = newVin then some (i, s.prevPubKey) else found
    | none => found) none
  match found with
  | none => true
  | some (n, sigPubKey) =>
    verifies node newSig sigPubKey
      { txNew with vin := txNew.vin.modify n fun i => { i with scriptSig := newSig } } n

/-- `CObfuScationEntry::AddSig`: the inputs of the entry with the signature, if it takes it. -/
def addSig (vin : CTxIn) : List CTxDSIn → Option (List CTxDSIn)
  | [] => none
  | s :: sev =>
    if s.prevout = vin.prevout ∧ s.nSequence = vin.nSequence then
      if s.fHasSig then none
      else some ({ s with scriptSig := vin.scriptSig, prevPubKey := [], fHasSig := true } :: sev)
    else (addSig vin sev).map (s :: ·)

/-- The first entry that takes the signature. -/
def addSigs (vin : CTxIn) : List CObfuScationEntry → Option (List CObfuScationEntry)
  | [] => none
  | e :: entries =>
    match addSig vin e.sev with
    | some sev => some ({ e with sev := sev } :: entries)
    | none => (addSigs vin entries).map (e :: ·)

/-- The final transaction with the script of the input in all inputs like it. -/
def signFinal (newVin : CTxIn) (tx : CMutableTransaction) : CMutableTransaction :=
  { tx with vin := tx.vin.map fun vin =>
      if newVin.prevout = vin.prevout ∧ vin.nSequence = newVin.nSequence then
        { vin with scriptSig := newVin.scriptSig }
      else vin }

def addScriptSig (newVin : CTxIn) (pool : CObfuscationPool) : CObfuscationPool × Bool :=
  if pool.entries.any fun v => v.sev.any fun s => s.scriptSig == newVin.scriptSig then
    (pool, false)
  else if !signatureValid node newVin.scriptSig newVin pool then (pool, false)
  else
    let pool := { pool with finalTransaction := signFinal newVin pool.finalTransaction }
    match addSigs newVin pool.entries with
    | some entries => ({ pool with entries := entries }, true)
    | none => (pool, false)

/-- The `dss` message: the pool after all its signatures, and whether one was taken. -/
def addScriptSigs : List CTxIn → CObfuscationPool → CObfuscationPool × Bool
  | [], pool => (pool, false)
  | item :: sigs, pool =>
    let (pool, added) := addScriptSig node item pool
    let (pool, success) := addScriptSigs sigs pool
    (pool, added || success)

def processDss (nVersion : ℤ) (sigs : List CTxIn) (pool : CObfuscationPool) : CObfuscationPool :=
  if nVersion < m.activeProtocol then pool
  else
    let (pool, success) := addScriptSigs node sigs pool
    if success then check node m pool else pool

/-! Timeouts. -/

def isExpired (v : CObfuScationEntry) : Bool :=
  decide (obfuscationQueueTimeout < m.nTime - v.addedTime)

/-- Expired entries are erased, and the session with the last of them. The charges for clients
that fail leave the pool as it is. -/
def checkTimeout (pool : CObfuscationPool) : CObfuscationPool :=
  let pool :=
    if pool.state = .acceptingEntries ∨ pool.state = .queue then
      let entries := pool.entries.filter fun v => !isExpired m v
      let pool :=
        if pool.entries ≠ [] ∧ entries = [] then pool.setNull m
        else { pool with entries := entries }
      if obfuscationQueueTimeout * 1000 ≤ m.nTimeMillis - pool.lastTimeChanged then pool.setNull m
      else pool
    else if obfuscationQueueTimeout * 1000 ≤ m.nTimeMillis - pool.lastTimeChanged then
      (pool.setNull m).updateState m .error
    else pool
  if pool.state = .signing ∧
      obfuscationSigningTimeout * 1000 ≤ m.nTimeMillis - pool.lastTimeChanged then
    (pool.setNull m).updateState m .error
  else pool

def checkForCompleteQueue (pool : CObfuscationPool) : CObfuscationPool :=
  if pool.state = .queue ∧ pool.sessionUsers = node.nPoolMaxTransactions then
    pool.updateState m .acceptingEntries
  else pool

end Checks

/-! Runs. -/

/-- What happens to the pool, and when. Messages come from any peer. -/
inductive Event
  | dsa (m : Moment) (nVersion nDenom : ℤ) (txCollateral : CTransaction)
  | dsi (m : Moment) (nVersion : ℤ) (msg : Dsi)
  | dss (m : Moment) (nVersion : ℤ) (sigs : List CTxIn)
  | checkTimeout (m : Moment)
  | checkForCompleteQueue (m : Moment)

/-- The pool of a node that starts. -/
def start (m : Moment) : CObfuscationPool := CObfuscationPool.setNull m {}

def step (node : Node) (pool : CObfuscationPool) : Event → CObfuscationPool
  | .dsa m nVersion nDenom txCollateral => (processDsa node m nVersion nDenom txCollateral pool).1
  | .dsi m nVersion msg => (processDsi node m nVersion msg pool).1
  | .dss m nVersion sigs => processDss node m nVersion sigs pool
  | .checkTimeout m => checkTimeout m pool
  | .checkForCompleteQueue m => checkForCompleteQueue node m pool

end Scrypta.Mixing
