import Scrypta.MasternodeMan
import Scrypta.MasternodePayment
import Scrypta.ProofOfWork

/-! The ranking of the masternodes. A masternode's score for a height mixes its outpoint with the
hash of the block below that height; hashes are remembered by height once they have been read. -/

namespace Scrypta.Ranking

open Spork PaymentVotes ProofOfWork Binary64

structure Block where
  hash : Uint256
  nTime : ℤ
  deriving DecidableEq, Repr

/-- An entry of the list with the age of its input, which is kept once it is known. -/
structure CMasternode extends Masternodes.CMasternode where
  cacheInputAge : ℤ
  cacheInputAgeBlock : ℤ
  deriving DecidableEq

/-- What the ranking reads and changes. `chainActive` runs from the tip down to the genesis block,
so that a block's height is the number of blocks after it. -/
structure Node where
  chainActive : List Block
  mapCacheBlockHashes : Dict ℤ Uint256
  vMasternodes : List CMasternode

structure Env extends Masternodes.Env where
  sporks : Sporks
  mapMasternodeBlocks : Dict ℤ CMasternodeBlockPayees

/-- The hash of a block's hash, alone and followed by a masternode's number, and the functions that
the masternode messages use. -/
structure Oracles extends Masternodes.Oracles where
  hashBlock : Uint256 → Uint256
  hashBlockAux : Uint256 → Uint256 → Uint256

/-- `std::sort` from the highest first component down. What it does with equal ones is open. -/
structure Sorting where
  run : List (ℤ × CTxIn) → List (ℤ × CTxIn)
  perm : ∀ l, (run l).Perm l
  sorted : ∀ l, (run l).Pairwise fun s t => t.1 ≤ s.1

section Scores

/-- The loop of `GetBlockHash`: the block `nBlocksAgo` steps back, above the genesis block. -/
def readBack (nBlocksAgo : ℤ) : ℤ → List Block → Option Uint256
  | _, [] => none
  | n, blockReading :: pprev =>
    if pprev = [] then none
    else if nBlocksAgo ≤ n then some blockReading.hash
    else readBack nBlocksAgo (n + 1) pprev

/-- `GetBlockHash`; the hash is `none` where it returns false. -/
def getBlockHash (node : Node) (nBlockHeight : ℤ) : Option Uint256 × Node :=
  match node.chainActive with
  | [] => (none, node)
  | tip :: pprev =>
    let nHeight : ℤ := pprev.length
    let nBlockHeight := if nBlockHeight = 0 then nHeight else nBlockHeight
    match node.mapCacheBlockHashes.find nBlockHeight with
    | some hash => (some hash, node)
    | none =>
      if nHeight = 0 ∨ nHeight + 1 < nBlockHeight then (none, node)
      else
        let nBlocksAgo := if 0 < nBlockHeight then nHeight + 1 - nBlockHeight else 0
        match readBack nBlocksAgo 0 (tip :: pprev) with
        | some hash => (some hash, { node with
            mapCacheBlockHashes := node.mapCacheBlockHashes.set nBlockHeight hash })
        | none => (none, node)

variable (orc : Oracles)

/-- The distance between the two hashes that a score is made of. -/
def distance (hash : Uint256) (prevout : COutPoint) : Uint256 :=
  let aux := prevout.hash + prevout.n.setWidth 256
  let hash2 := orc.hashBlock hash
  let hash3 := orc.hashBlockAux hash aux
  if hash2 < hash3 then hash3 - hash2 else hash2 - hash3

def calculateScore (node : Node) (mn : CMasternode) (nBlockHeight : ℤ) : Uint256 × Node :=
  if node.chainActive = [] then (0, node)
  else
    match getBlockHash node (toInt32 nBlockHeight) with
    | (none, node) => (0, node)
    | (some hash, node) => (distance orc hash mn.vin.prevout, node)

/-- `GetCompact` of a score, as a 64-bit integer. -/
def compact (n : Uint256) : ℤ := (getCompact n).toNat

end Scores

section Entries

variable (orc : Oracles) (env : Env)

def CMasternode.check (mn : CMasternode) : CMasternode :=
  { mn with toCMasternode := mn.toCMasternode.check env.toEnv false }

def checkAll (node : Node) : Node :=
  { node with vMasternodes := node.vMasternodes.map (·.check env) }

/-- The test of `CountEnabled` on an entry that has been checked. -/
def counts (minProtocol : ℤ) (mn : CMasternode) : Bool :=
  !decide (mn.protocolVersion < minProtocol) && mn.isEnabled

/-- `CountEnabled(-1)` -/
def countEnabled (node : Node) : ℕ × Node :=
  let node := checkAll env node
  (node.vMasternodes.countP (counts env.minMasternodePaymentsProto), node)

def find (node : Node) (vin : CTxIn) : Option CMasternode :=
  node.vMasternodes.find? fun mn => mn.vin.prevout = vin.prevout

/-- `GetMasternodeInputAge` keeps the age it asked for. -/
def getMasternodeInputAge (node : Node) (mn : CMasternode) : ℤ × CMasternode :=
  match node.chainActive with
  | [] => (0, mn)
  | _ :: pprev =>
    let nHeight : ℤ := pprev.length
    let mn := if mn.cacheInputAge = 0 then
        { mn with cacheInputAge := env.getInputAge mn.vin, cacheInputAgeBlock := nHeight }
      else mn
    (mn.cacheInputAge + (nHeight - mn.cacheInputAgeBlock), mn)

def payeeScript (mn : CMasternode) : CScript :=
  Masternodes.CMasternodeBroadcast.payeeScript orc.toOracles mn.pubKeyCollateralAddress

def hasPayeeWithVotes (b : CMasternodeBlockPayees) (payee : CScript) (nVotesReq : ℤ) : Bool :=
  b.vecPayments.any fun p => decide (nVotesReq ≤ p.nVotes) && p.scriptPubKey == payee

/-- The blocks are searched for the payee, down to the one above the genesis block. -/
def lastPaid (mnpayee : CScript) (nOffset nMnCount : ℤ) : ℤ → List Block → ℤ
  | _, [] => 0
  | n, blockReading :: pprev =>
    if pprev = [] then 0
    else if nMnCount ≤ n then 0
    else
      match env.mapMasternodeBlocks.find pprev.length with
      | some b =>
        if hasPayeeWithVotes b mnpayee 2 then blockReading.nTime + nOffset
        else lastPaid mnpayee nOffset nMnCount (n + 1) pprev
      | none => lastPaid mnpayee nOffset nMnCount (n + 1) pprev

/-- The hash of an entry's input and time; a ping is hashed in the same way. -/
def entryHash (mn : CMasternode) : Uint256 := orc.hashPing mn.vin mn.sigTime

/-- `GetLastPaid` counts the masternodes after their checks. Where it is called they have just been
checked, and a second check at the same time does nothing. -/
def getLastPaid (node : Node) (mn : CMasternode) : ℤ :=
  let nOffset := compact (entryHash orc mn) % 150
  let nMnCount : ℤ := (5 * (countEnabled env node).1 : ℤ).tdiv 4
  lastPaid env (payeeScript orc mn) nOffset nMnCount 0 node.chainActive

def secondsSincePayment (node : Node) (mn : CMasternode) : ℤ :=
  let sec := env.adjustedTime - getLastPaid orc env node mn
  let month : ℤ := 60 * 60 * 24 * 30
  if sec < month then sec else month + compact (entryHash orc mn)

/-- `IsScheduled`: one of the next blocks is known to pay the masternode. -/
def isScheduled (node : Node) (mn : CMasternode) (nNotBlockHeight : ℤ) : Bool :=
  match node.chainActive with
  | [] => false
  | _ :: pprev =>
    env.lockMain && (List.range 9).any fun i =>
      let h : ℤ := pprev.length + i
      h != nNotBlockHeight &&
        (env.mapMasternodeBlocks.find h).bind Payees.getPayee == some (payeeScript orc mn)

end Entries

section Queue

variable (orc : Oracles) (srt : Sorting) (env : Env)

/-- The age of an entry is compared with the number of masternodes in floating point. -/
def isTooNew (nMnCount : ℕ) (mn : CMasternode) : Bool :=
  decide (ofInt env.adjustedTime <
    add (ofInt mn.sigTime) (mul (mul (ofInt nMnCount) (literal 26 10)) (ofInt 60)))

/-- The tests of an entry up to its input's age, which is only asked for after them. -/
def isWaiting (node : Node) (nBlockHeight : ℤ) (fFilterSigTime : Bool) (nMnCount : ℕ)
    (mn : CMasternode) : Bool :=
  mn.isEnabled && !decide (mn.protocolVersion < env.minMasternodePaymentsProto) &&
    !isScheduled orc env node mn nBlockHeight && !(fFilterSigTime && isTooNew env nMnCount mn)

/-- One turn of the loop over the entries: what is put into the vector, and the entry after it. -/
def enqueue (node : Node) (nBlockHeight : ℤ) (fFilterSigTime : Bool) (nMnCount : ℕ)
    (mn : CMasternode) : Option (ℤ × CTxIn) × CMasternode :=
  let mn := mn.check env
  if isWaiting orc env node nBlockHeight fFilterSigTime nMnCount mn then
    let (age, mn) := getMasternodeInputAge env node mn
    if age < nMnCount then (none, mn)
    else (some (secondsSincePayment orc env node mn, mn.vin), mn)
  else (none, mn)

/-- `vecMasternodeLastPaid` before it is sorted, and `nMnCount`. -/
def collect (node : Node) (nBlockHeight : ℤ) (fFilterSigTime : Bool) :
    List (ℤ × CTxIn) × ℕ × Node :=
  let (nMnCount, node) := countEnabled env node
  let turns := node.vMasternodes.map (enqueue orc env node nBlockHeight fFilterSigTime nMnCount)
  (turns.filterMap Prod.fst, nMnCount, { node with vMasternodes := turns.map Prod.snd })

/-- The loop over the tenth that has waited longest. -/
def bestOf (nBlockHeight : ℤ) (nTenthNetwork : ℕ) :
    ℕ → Uint256 → Option CMasternode → List (ℤ × CTxIn) → Node → Option CMasternode × Node
  | _, _, best, [], node => (best, node)
  | nCountTenth, nHigh, best, s :: rest, node =>
    match find node s.2 with
    | none => (best, node)
    | some pmn =>
      let (n, node) := calculateScore orc node pmn (nBlockHeight - 100)
      let (nHigh, best) := if nHigh < n then (n, some pmn) else (nHigh, best)
      if nTenthNetwork ≤ nCountTenth + 1 then (best, node)
      else bestOf nBlockHeight nTenthNetwork (nCountTenth + 1) nHigh best rest node

def payBest (node : Node) (nBlockHeight : ℤ) (vecMasternodeLastPaid : List (ℤ × CTxIn)) :
    Option CMasternode × Node :=
  let sorted := srt.run vecMasternodeLastPaid
  let (nEnabled, node) := countEnabled env node
  bestOf orc nBlockHeight (nEnabled / 10) 0 0 none sorted node

/-- `GetNextMasternodeInQueueForPayment`, with `nCount` -/
def getNextMasternodeInQueueForPayment (node : Node) (nBlockHeight : ℤ) (fFilterSigTime : Bool) :
    (Option CMasternode × ℕ) × Node :=
  let (vec, nMnCount, node) := collect orc env node nBlockHeight fFilterSigTime
  if fFilterSigTime && decide (vec.length < nMnCount / 3) then
    -- the call of itself, now without the filter
    let (vec, _, node) := collect orc env node nBlockHeight false
    let (best, node) := payBest orc srt env node nBlockHeight vec
    ((best, vec.length), node)
  else
    let (best, node) := payBest orc srt env node nBlockHeight vec
    ((best, vec.length), node)

end Queue

section Ranks

variable (orc : Oracles) (srt : Sorting) (env : Env)

/-- The loop of `GetCurrentMasterNode` over entries that have been checked. -/
def scanForWinner (nBlockHeight minProtocol : ℤ) :
    ℤ → Option CMasternode → List CMasternode → Node → Option CMasternode × Node
  | _, winner, [], node => (winner, node)
  | score, winner, mn :: rest, node =>
    if counts minProtocol mn then
      let (n, node) := calculateScore orc node mn nBlockHeight
      if score < compact n then
        scanForWinner nBlockHeight minProtocol (compact n) (some mn) rest node
      else scanForWinner nBlockHeight minProtocol score winner rest node
    else scanForWinner nBlockHeight minProtocol score winner rest node

/-- `GetCurrentMasterNode`; a check of one entry does not depend on the other entries. -/
def getCurrentMasterNode (node : Node) (nBlockHeight minProtocol : ℤ) : Option CMasternode × Node :=
  let node := checkAll env node
  scanForWinner orc nBlockHeight minProtocol 0 none node.vMasternodes node

/-- The tests of `GetMasternodeRank` before an entry is checked. -/
def isOldEnough (minProtocol : ℤ) (mn : CMasternode) : Bool :=
  !decide (mn.protocolVersion < minProtocol) &&
    !(isSporkActive env.sporks spork8MasternodePaymentEnforcement &&
      decide (env.adjustedTime - mn.sigTime <
        getSporkValue env.sporks spork16MnWinnerMinimumAge))

/-- The entry after its turn of the loop. -/
def rankTurn (minProtocol : ℤ) (fOnlyActive : Bool) (mn : CMasternode) : CMasternode :=
  if isOldEnough env minProtocol mn && fOnlyActive then mn.check env else mn

/-- The entry is ranked. -/
def isRanked (minProtocol : ℤ) (fOnlyActive : Bool) (mn : CMasternode) : Bool :=
  isOldEnough env minProtocol mn && (!fOnlyActive || (mn.check env).isEnabled)

/-- `vecMasternodeScores` -/
def rankScores (nBlockHeight minProtocol : ℤ) (fOnlyActive : Bool) :
    List CMasternode → Node → List (ℤ × CTxIn) × Node
  | [], node => ([], node)
  | mn :: rest, node =>
    if isRanked env minProtocol fOnlyActive mn then
      let (n, node) := calculateScore orc node mn nBlockHeight
      let (scores, node) := rankScores nBlockHeight minProtocol fOnlyActive rest node
      ((compact n, mn.vin) :: scores, node)
    else rankScores nBlockHeight minProtocol fOnlyActive rest node

/-- The place of the outpoint among the sorted scores, from `rank + 1` on. -/
def placeOf (vin : CTxIn) : ℤ → List (ℤ × CTxIn) → ℤ
  | _, [] => -1
  | rank, s :: rest =>
    if s.2.prevout = vin.prevout then rank + 1 else placeOf vin (rank + 1) rest

def getMasternodeRank (node : Node) (vin : CTxIn) (nBlockHeight minProtocol : ℤ)
    (fOnlyActive : Bool) : ℤ × Node :=
  match getBlockHash node (toInt32 nBlockHeight) with
  | (none, node) => (-1, node)
  | (some _, node) =>
    let (scores, after) := rankScores orc env nBlockHeight minProtocol fOnlyActive
      node.vMasternodes node
    (placeOf vin 0 (srt.run scores), { after with
      vMasternodes := node.vMasternodes.map (rankTurn env minProtocol fOnlyActive) })

end Ranks

end Scrypta.Ranking
