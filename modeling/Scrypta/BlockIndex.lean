import Scrypta.JustCheck
import Scrypta.Toolkit.Pointers

/-! The block index as the program keeps it: entries that point to one another, the status and
the sums in each, the sets around them, and the records of the block-tree database. Blocks enter
it and are connected and disconnected; a restarted process reads the records and computes the
rest. A pointer to an entry is the hash under which the entry is filed. -/

namespace Scrypta.BlockIndex

open LittleEndian
open Validation (IndexFields CDiskBlockIndex Context blockHaveData blockHaveUndo blockFailedMask
  blockValidMask blockValidScripts)

def blockFailedValid : ℕ := 32
def blockFailedChild : ℕ := 64
def blockValidTree : ℕ := 2
def blockValidTransactions : ℕ := 3

/-- `CBlockIndex` -/
structure Entry extends IndexFields where
  pprev : Option Uint256 := none
  pskip : Option Uint256 := none
  nHeight : ℕ := 0
  nTime : BitVec 32 := 0
  nBits : BitVec 32 := 0
  nStakeModifier : BitVec 64 := 0
  bnChainTrust : Uint256 := 0
  nChainWork : Uint256 := 0
  nChainTx : ℕ := 0
  nSequenceId : ℕ := 0
  nStakeModifierChecksum : BitVec 32 := 0
  hashProofOfStake : Uint256 := 0
  deriving DecidableEq

abbrev BlockMap := Dict Uint256 Entry

namespace Entry

def hasData (e : Entry) : Bool := e.nStatus &&& blockHaveData ≠ 0

def hasUndo (e : Entry) : Bool := e.nStatus &&& blockHaveUndo ≠ 0

def failed (e : Entry) : Bool := e.nStatus &&& blockFailedMask ≠ 0

def isValid (e : Entry) (nUpTo : ℕ) : Bool :=
  !e.failed && nUpTo ≤ e.nStatus &&& blockValidMask

def isProofOfStake (e : Entry) : Bool := e.nFlags &&& 1 ≠ 0

def generatedStakeModifier (e : Entry) : Bool := e.nFlags &&& 4 ≠ 0

def addStatus (e : Entry) (flag : ℕ) : Entry := { e with nStatus := e.nStatus ||| flag }

def raiseValidity (e : Entry) (nUpTo : ℕ) : Entry :=
  if e.failed then e
  else if e.nStatus &&& blockValidMask < nUpTo then
    { e with nStatus := e.nStatus - (e.nStatus &&& blockValidMask) + nUpTo }
  else e

def setProofOfStake (e : Entry) : Entry := { e with nFlags := e.nFlags ||| 1 }

def getBlockTrust (e : Entry) : Uint256 :=
  let bnTarget := setCompact e.nBits
  if bnTarget = 0 then 0
  -- the shift leaves nothing of the one
  else if e.isProofOfStake then ((1 : Uint256) <<< 256) / (bnTarget + 1)
  else
    let bnPoWTrust := (~~~(0 : Uint256) >>> 20) / (bnTarget + 1)
    if 1 < bnPoWTrust then bnPoWTrust else 1

/-- `CDiskBlockIndex(pindex)` -/
def disk (e : Entry) : CDiskBlockIndex where
  toIndexFields := e.toIndexFields
  nHeight := e.nHeight
  nStakeModifier := e.nStakeModifier
  hashPrev := e.pprev.getD 0
  nTime := e.nTime
  nBits := e.nBits

def info (hash : Uint256) (e : Entry) : BlockInfo where
  hash := hash
  nTime := e.nTime
  nBits := e.nBits
  fProofOfStake := e.isProofOfStake
  fGeneratedStakeModifier := e.generatedStakeModifier
  nStakeModifier := e.nStakeModifier

end Entry

/-- `CBlockIndex(block)` -/
def entryOf (block : CBlock) : Entry where
  nFlags := if block.isProofOfStake then 1 else 0
  prevoutStake :=
    if block.isProofOfStake then ((block.vtx[1]?.bind (·.vin.head?)).map CTxIn.prevout).getD
      COutPoint.null
    else COutPoint.null
  nStakeTime := if block.isProofOfStake then block.nTime.toNat else 0
  nVersion := block.nVersion
  hashMerkleRoot := block.hashMerkleRoot
  nTime := block.nTime
  nBits := block.nBits
  nNonce := block.nNonce

/-! Following the pointers. -/

section Pointers

variable (m : BlockMap)

def parent (hash : Uint256) : Option Uint256 := (m.find hash).bind (·.pprev)

def skip (hash : Uint256) : Option Uint256 := (m.find hash).bind (·.pskip)

/-- The entry with its ancestors, down to the height 0. -/
def lineage : ℕ → Uint256 → Entry → CBlockIndex
  | 0, hash, e => .root (e.info hash)
  | k + 1, hash, e =>
    match e.pprev.bind fun p => (m.find p).map fun ep => (p, ep) with
    | none => .root (e.info hash)
    | some (p, ep) => .child (lineage k p ep) (e.info hash)

/-- What the computation of stake modifiers and the stake checks read of the index. -/
def trees : Kernel.BlockMap :=
  m.toList.foldl (fun t x => t.set x.1 (lineage m x.2.nHeight x.1 x.2)) Dict.empty

/-- The entry and its ancestors, the youngest first. -/
def line : ℕ → Uint256 → List Uint256
  | 0, hash => [hash]
  | k + 1, hash =>
    match parent m hash with
    | none => [hash]
    | some p => hash :: line k p

def lineOf (hash : Uint256) : List Uint256 := line m ((m.find hash).elim 0 (·.nHeight)) hash

def invertLowestOne (n : ℕ) : ℕ := n &&& (n - 1)

def getSkipHeight (height : ℕ) : ℕ :=
  if height < 2 then 0
  else if height &&& 1 ≠ 0 then invertLowestOne (invertLowestOne (height - 1)) + 1
  else invertLowestOne height

/-- Whether the walk from one height to a lower one follows the skip pointer. -/
def takesSkip (height heightWalk : ℕ) : Bool :=
  let heightSkip := getSkipHeight heightWalk
  let heightSkipPrev := getSkipHeight (heightWalk - 1)
  heightSkip = height ||
    (height < heightSkip && !(heightSkipPrev + 2 < heightSkip && height ≤ heightSkipPrev))

def getAncestor (hash : Uint256) (height : ℤ) : Option Uint256 :=
  (m.find hash).bind fun e =>
    if e.nHeight < height ∨ height < 0 then none
    else
      Pointers.walk (parent m) (skip m) getSkipHeight (takesSkip height.toNat) height.toNat
        (e.nHeight + 1) hash e.nHeight

/-- The pointer that `BuildSkip` gives to an entry. -/
def buildSkip (e : Entry) : Option Uint256 :=
  e.pprev.bind fun p => getAncestor m p (getSkipHeight e.nHeight)

end Pointers

/-! The node. -/

/-- What differs from one process to the next: the address of the literal that the first stake
modifier is cast from, and where the entries lie in memory. -/
structure Process where
  literal : BitVec 64
  address : Uint256 → ℕ

/-- `Hash` is the double SHA-256. -/
structure Params where
  Hash : Bytes → Uint256
  modifierUpgradeBlock : ℕ
  nLastPOWBlock : ℕ
  checkProofOfWork : Uint256 → BitVec 32 → Bool
  ctx : Context
  genesis : CBlock
  genesis_prev : genesis.hashPrevBlock = 0
  genesis_vtx : genesis.vtx ≠ []

structure Node where
  mapBlockIndex : BlockMap := Dict.empty
  chainActive : List Uint256 := []
  setBlockIndexCandidates : List Uint256 := []
  mapBlocksUnlinked : List (Uint256 × Uint256) := []
  setStakeSeen : List (COutPoint × ℕ) := []
  setDirtyBlockIndex : List Uint256 := []
  nBlockSequenceId : ℕ := 1
  blockTree : Dict Uint256 CDiskBlockIndex := Dict.empty
  /-- The best block of the coins database. -/
  bestBlock : Uint256 := 0

namespace Node

def find (n : Node) (hash : Uint256) : Option Entry := n.mapBlockIndex.find hash

def tip (n : Node) : Option Uint256 := n.chainActive.getLast?

def modify (n : Node) (hash : Uint256) (f : Entry → Entry) : Node :=
  { n with mapBlockIndex := n.mapBlockIndex.modify hash f }

def insertDirty (n : Node) (hash : Uint256) : Node :=
  { n with setDirtyBlockIndex :=
      if hash ∈ n.setDirtyBlockIndex then n.setDirtyBlockIndex
      else hash :: n.setDirtyBlockIndex }

def insertCandidate (n : Node) (hash : Uint256) : Node :=
  { n with setBlockIndexCandidates :=
      if hash ∈ n.setBlockIndexCandidates then n.setBlockIndexCandidates
      else hash :: n.setBlockIndexCandidates }

def insertStake (n : Node) (e : Entry) : Node :=
  if e.isProofOfStake then
    { n with setStakeSeen := (e.prevoutStake, e.nStakeTime) :: n.setStakeSeen }
  else n

def contains (n : Node) (hash : Uint256) : Bool :=
  (n.find hash).any fun e => n.chainActive[e.nHeight]? == some hash

end Node

section Machine

variable (par : Params) (proc : Process)

def hashOf (block : CBlock) : Uint256 :=
  par.ctx.hashQuark block.nVersion block.hashPrevBlock block.hashMerkleRoot block.nTime
    block.nBits block.nNonce

def kernelParams : Kernel.Params := ⟨par.Hash, proc.literal, par.modifierUpgradeBlock⟩

/-- `CBlockIndexWorkComparator` -/
def workLess (m : BlockMap) (pa pb : Uint256) : Bool :=
  match m.find pa, m.find pb with
  | some a, some b =>
    if b.nChainWork < a.nChainWork then false
    else if a.nChainWork < b.nChainWork then true
    else if a.nSequenceId < b.nSequenceId then false
    else if b.nSequenceId < a.nSequenceId then true
    else if proc.address pa < proc.address pb then false
    else if proc.address pb < proc.address pa then true
    else false
  | _, _ => false

def getStakeModifierChecksum (nStakeModifierChecksumPrev : BitVec 32) (e : Entry) : BitVec 32 :=
  (par.Hash (encode 4 nStakeModifierChecksumPrev.toNat ++ encode 4 e.nFlags ++
    encode 32 e.hashProofOfStake.toNat ++ encode 8 e.nStakeModifier.toNat) >>> (256 - 32)).setWidth
      32

/-- The part of `AddToBlockIndex` for a block whose predecessor is in the index. -/
def linkEntry (m : BlockMap) (hash p : Uint256) (ep : Entry) (hashProofOfStake : Uint256)
    (e : Entry) : Entry :=
  let e := { e with pprev := some p, nHeight := ep.nHeight + 1 }
  let e := { e with pskip := buildSkip m e, bnChainTrust := ep.bnChainTrust + e.getBlockTrust }
  let e := { e with nFlags := e.nFlags ||| (if hash.getLsbD 0 then 2 else 0) }
  let e := { e with hashProofOfStake := if e.isProofOfStake then hashProofOfStake else 0 }
  let next := Kernel.computeNextStakeModifier (kernelParams par proc) (trees m)
    (lineage m ep.nHeight p ep)
  let e := { e with
    nStakeModifier := next.1
    nFlags := e.nFlags ||| (if next.2 then 4 else 0) }
  { e with nStakeModifierChecksum := getStakeModifierChecksum par ep.nStakeModifierChecksum e }

/-- The entry of a new block; `hashProofOfStake` is what `mapProofOfStake` holds for it. -/
def newEntry (m : BlockMap) (block : CBlock) (hashProofOfStake : Uint256) : Entry :=
  match m.find block.hashPrevBlock with
  | none =>
    ({ entryOf block with nChainWork := getBlockProof block.nBits } : Entry).raiseValidity
      blockValidTree
  | some ep =>
    let e := linkEntry par proc m (hashOf par block) block.hashPrevBlock ep hashProofOfStake
      (entryOf block)
    ({ e with nChainWork := ep.nChainWork + getBlockProof e.nBits } : Entry).raiseValidity
      blockValidTree

def addToBlockIndex (n : Node) (block : CBlock) (hashProofOfStake : Uint256) : Node :=
  let hash := hashOf par block
  let e := newEntry par proc n.mapBlockIndex block hashProofOfStake
  (({ n with mapBlockIndex := n.mapBlockIndex.set hash e } : Node).insertStake
    (entryOf block)).insertDirty hash

/-! Data arrives. -/

def nChainTxBelow (m : BlockMap) (e : Entry) : ℕ := (e.pprev.bind m.find).elim 0 (·.nChainTx)

def Entry.linked (m : BlockMap) (nSequenceId : ℕ) (e : Entry) : Entry :=
  { e with nChainTx := nChainTxBelow m e + e.nTx, nSequenceId := nSequenceId }

/-- One block of the queue: it is numbered and becomes a candidate unless the tip is better. -/
def linkBlock (n : Node) (hash : Uint256) : Node :=
  let n := { n.modify hash (·.linked n.mapBlockIndex n.nBlockSequenceId) with
    nBlockSequenceId := n.nBlockSequenceId + 1 }
  match n.tip with
  | none => n.insertCandidate hash
  | some t => if workLess proc n.mapBlockIndex hash t then n else n.insertCandidate hash

/-- Each pass takes one block off the queue and moves the blocks that waited for it from
`mapBlocksUnlinked` to the queue. -/
def linkQueue : ℕ → List Uint256 → Node → Node
  | 0, _, n => n
  | _, [], n => n
  | k + 1, hash :: queue, n =>
    let n := linkBlock proc n hash
    linkQueue k (queue ++ (n.mapBlocksUnlinked.filter (·.1 = hash)).map (·.2))
      { n with mapBlocksUnlinked := n.mapBlocksUnlinked.filter (·.1 ≠ hash) }

/-- Where the data of a block was written. -/
structure DiskPos where
  nFile : ℕ
  nPos : ℕ

/-- The assignments to the entry of a block whose data has arrived. -/
def Entry.received (block : CBlock) (pos : DiskPos) (e : Entry) : Entry :=
  let e := if block.isProofOfStake then e.setProofOfStake else e
  ({ e with
    nTx := block.vtx.length, nChainTx := 0, nFile := pos.nFile, nDataPos := pos.nPos,
    nUndoPos := 0 }.addStatus blockHaveData).raiseValidity blockValidTransactions

def receivedBlockTransactions (n : Node) (block : CBlock) (hash : Uint256) (pos : DiskPos) :
    Node :=
  let n := (n.modify hash (·.received block pos)).insertDirty hash
  match (parent n.mapBlockIndex hash).bind fun p => (n.find p).map fun ep => (p, ep) with
  | none => linkQueue proc (n.mapBlocksUnlinked.length + 1) [hash] n
  | some (p, ep) =>
    if ep.nChainTx ≠ 0 then linkQueue proc (n.mapBlocksUnlinked.length + 1) [hash] n
    else if ep.isValid blockValidTree then
      { n with mapBlocksUnlinked := n.mapBlocksUnlinked ++ [(p, hash)] }
    else n

/-- The outcome of the checks of an arriving block: `CheckWork` and what it puts into
`mapProofOfStake`, the checks of its header, those of the block, whether a refusal blames the
block, and where its data went, if it could be written. -/
structure Checks where
  checkWork : Bool
  hashProofOfStake : Uint256
  checkHeader : Bool
  checkBlock : Bool
  blames : Bool
  position : Option DiskPos

/-- `AcceptBlock` from the checks of the block on. -/
def storeBlock (n : Node) (block : CBlock) (hash : Uint256) (o : Checks) : Node :=
  if (n.find hash).any Entry.hasData then n
  -- a block without transactions does not pass
  else if !o.checkBlock || block.vtx.isEmpty then
    if o.blames then (n.modify hash (·.addStatus blockFailedValid)).insertDirty hash else n
  else
    match o.position with
    | none => n
    | some pos => receivedBlockTransactions proc n block hash pos

/-- The predecessor is known and not failed, and the work is right. -/
def checkPrev (n : Node) (block : CBlock) (o : Checks) : Bool :=
  hashOf par block == hashOf par par.genesis ||
    ((n.find block.hashPrevBlock).any fun pindexPrev => !pindexPrev.failed && o.checkWork)

def acceptBlock (n : Node) (block : CBlock) (o : Checks) : Node :=
  let hash := hashOf par block
  if !checkPrev par n block o then n
  else
    match n.find hash with
    | some pindex => if pindex.failed then n else storeBlock proc n block hash o
    | none =>
      if o.checkHeader then
        storeBlock proc (addToBlockIndex par proc n block o.hashProofOfStake) block hash o
      else n

/-! The best chain is activated. -/

/-- The block and its ancestors down to the active chain, the youngest first. -/
def offChain (n : Node) (hash : Uint256) : List Uint256 :=
  (lineOf n.mapBlockIndex hash).takeWhile fun x => !n.contains x

def unusable (n : Node) (hash : Uint256) : Bool :=
  (n.find hash).all fun e => e.failed || !e.hasData

def bestCandidate (n : Node) : Option Uint256 :=
  n.setBlockIndexCandidates.foldl (fun best hash =>
    match best with
    | none => some hash
    | some b => if workLess proc n.mapBlockIndex b hash then some hash else some b) none

def markChain (m : BlockMap) (younger : List Uint256) : BlockMap :=
  younger.foldl (fun m hash => m.modify hash (·.addStatus blockFailedChild)) m

/-- `pindexTest` is the first unusable block under a candidate, `younger` are the blocks from
the candidate down to it. The marks are not recorded in `setDirtyBlockIndex`. -/
def dropChain (n : Node) (pindexTest : Uint256) (younger : List Uint256) : Node :=
  let fFailedChain := (n.find pindexTest).any Entry.failed
  { n with
    mapBlockIndex :=
      if fFailedChain then markChain n.mapBlockIndex younger else n.mapBlockIndex
    mapBlocksUnlinked :=
      if fFailedChain then n.mapBlocksUnlinked
      else n.mapBlocksUnlinked ++
        younger.filterMap fun hash => (parent n.mapBlockIndex hash).map fun p => (p, hash)
    setBlockIndexCandidates :=
      n.setBlockIndexCandidates.filter fun hash => !(pindexTest :: younger).contains hash }

/-- Every round drops a candidate, so there are at most as many rounds as candidates. -/
def findMostWorkLoop : ℕ → Node → Node
  | 0, n => n
  | k + 1, n =>
    match bestCandidate proc n with
    | none => n
    | some pindexNew =>
      match (offChain n pindexNew).find? (unusable n) with
      | none => n
      | some pindexTest =>
        findMostWorkLoop k
          (dropChain n pindexTest ((offChain n pindexNew).takeWhile (· ≠ pindexTest)))

/-- What `FindMostWorkChain` leaves behind. -/
def findMostWorkChain (n : Node) : Node :=
  findMostWorkLoop proc (n.setBlockIndexCandidates.length + 1) n

def pruneBlockIndexCandidates (n : Node) : Node :=
  { n with
    setBlockIndexCandidates := n.setBlockIndexCandidates.filter fun hash =>
      !(n.tip.any (workLess proc n.mapBlockIndex hash)) }

def setTip (n : Node) (hash : Uint256) : Node :=
  { n with chainActive := (lineOf n.mapBlockIndex hash).reverse, bestBlock := hash }

/-- A failed write is an exception. -/
def writeBlockIndex (n : Node) (hash : Uint256) : Node :=
  match n.find hash with
  | none => n
  | some e =>
    { n with blockTree := n.blockTree.set (e.disk.getBlockHash par.ctx) e.disk.stored }

/-- `ConnectBlock` has summed the block up: what it created is `minted`. -/
def Entry.summed (m : BlockMap) (minted : CAmount) (e : Entry) : Entry :=
  let nMoneySupplyPrev := (e.pprev.bind m.find).elim 0 (·.nMoneySupply)
  let nMoneySupply := toInt64 (nMoneySupplyPrev + minted)
  { e with nMoneySupply := nMoneySupply, nMint := toInt64 (nMoneySupply - nMoneySupplyPrev) }

def writeSums (n : Node) (hash : Uint256) (minted : CAmount) : Node :=
  writeBlockIndex par (n.modify hash (·.summed n.mapBlockIndex minted)) hash

/-- The undo data is at `nUndoPos`, unless there was some before. -/
def Entry.connected (nUndoPos : ℕ) (e : Entry) : Entry :=
  (if e.hasUndo then e else { e with nUndoPos := nUndoPos }.addStatus blockHaveUndo).raiseValidity
    blockValidScripts

def raiseScripts (n : Node) (hash : Uint256) (nUndoPos : ℕ) : Node :=
  if (n.find hash).any fun e => e.hasUndo && e.isValid blockValidScripts then n
  else (n.modify hash (·.connected nUndoPos)).insertDirty hash

def invalidBlockFound (n : Node) (hash : Uint256) : Node :=
  let n := (n.modify hash (·.addStatus blockFailedValid)).insertDirty hash
  { n with setBlockIndexCandidates := n.setBlockIndexCandidates.filter (· ≠ hash) }

/-- What `ConnectBlock` does with a block. It is refused before or after it was summed up, and
the refusal blames the block or it does not; or it is connected. Of the genesis block nothing is
summed up. -/
inductive Connection
  | refused (minted : Option CAmount) (blames : Bool)
  | connected (minted : CAmount) (nUndoPos : ℕ)
  | genesis

/-- The block follows the tip, and `FindMostWorkChain` found it usable. -/
def connectable (n : Node) (hash : Uint256) : Bool :=
  (n.find hash).any fun e => e.pprev == n.tip && e.hasData && !e.failed

def connectTip (n : Node) (hash : Uint256) (c : Connection) : Node :=
  if !connectable n hash then n
  else
    match c with
    | .refused minted blames =>
      let n := minted.elim n (writeSums par n hash)
      if blames then invalidBlockFound n hash else n
    | .connected minted nUndoPos =>
      pruneBlockIndexCandidates proc
        (setTip (raiseScripts (writeSums par n hash minted) hash nUndoPos) hash)
    | .genesis => pruneBlockIndexCandidates proc (setTip n hash)

def disconnectTip (n : Node) : Node :=
  match n.tip.bind (parent n.mapBlockIndex) with
  | none => n
  | some p => setTip n p

/-- The part of `FlushStateToDisk` that writes index entries. -/
def flushStateToDisk (n : Node) : Node :=
  { n.setDirtyBlockIndex.foldl (writeBlockIndex par) n with setDirtyBlockIndex := [] }

/-- `AcceptBlock` is one event; `ActivateBestChain` is a sequence of the others. -/
inductive Event
  | acceptBlock (block : CBlock) (o : Checks)
  | findMostWorkChain
  | connectTip (hash : Uint256) (c : Connection)
  | disconnectTip
  | flushStateToDisk

def step (n : Node) : Event → Node
  | .acceptBlock block o => acceptBlock par proc n block o
  | .findMostWorkChain => findMostWorkChain proc n
  | .connectTip hash c => connectTip par proc n hash c
  | .disconnectTip => disconnectTip n
  | .flushStateToDisk => flushStateToDisk par n

def initBlockIndex (pos : DiskPos) : Node :=
  receivedBlockTransactions proc (addToBlockIndex par proc {} par.genesis 0) par.genesis
    (hashOf par par.genesis) pos

/-! A new process reads the index. -/

/-- An entry for a hash, new or already there; there is none for the hash 0. -/
def insertBlockIndex (m : BlockMap) (hash : Uint256) : BlockMap × Option Uint256 :=
  if hash = 0 then (m, none) else (m.insert hash {}, some hash)

/-- The assignments of `LoadBlockIndexGuts`. A record has no `hashProofOfStake`. -/
def Entry.load (e : Entry) (d : CDiskBlockIndex) (pprev : Option Uint256) : Entry :=
  { e with
    toIndexFields := d.toIndexFields
    pprev := pprev
    nHeight := d.nHeight
    nTime := d.nTime
    nBits := d.nBits
    nStakeModifier := d.nStakeModifier
    hashProofOfStake := 0 }

/-- One record; `none` when the block fails its proof of work, or when its entry would be a null
pointer. -/
def loadRecord (n : Node) (d : CDiskBlockIndex) : Option Node :=
  let hash := d.getBlockHash par.ctx
  let (m, pindexNew) := insertBlockIndex n.mapBlockIndex hash
  let (m, pprev) := insertBlockIndex m d.hashPrev
  let (m, _) := insertBlockIndex m d.hashNext
  if pindexNew = none then none
  else if d.nHeight ≤ par.nLastPOWBlock ∧ par.checkProofOfWork hash d.nBits = false then none
  else
    some (({ n with mapBlockIndex := m.modify hash (·.load d pprev) } : Node).insertStake
      (({} : Entry).load d pprev))

def loadBlockIndexGuts (blockTree : Dict Uint256 CDiskBlockIndex) : Option Node :=
  (blockTree.toList.map Prod.snd).foldlM (loadRecord par) {}

def heightOf (m : BlockMap) (hash : Uint256) : ℕ := (m.find hash).elim 0 (·.nHeight)

/-- The entries by height; those of one height by their address. -/
def sortedByHeight (m : BlockMap) : List Uint256 :=
  (m.toList.map Prod.fst).insertionSort fun a b =>
    heightOf m a < heightOf m b ∨ heightOf m a = heightOf m b ∧ proc.address a ≤ proc.address b

/-- What is recomputed of an entry when those below it are done. -/
def Entry.recalc (m : BlockMap) (e : Entry) : Entry :=
  { e with
    nChainWork := (e.pprev.bind m.find).elim 0 (·.nChainWork) + getBlockProof e.nBits
    nChainTx :=
      if e.hasData then
        if e.pprev.isNone then e.nTx
        else if nChainTxBelow m e ≠ 0 then nChainTxBelow m e + e.nTx
        else 0
      else e.nChainTx
    pskip := if e.pprev.isSome then buildSkip m e else e.pskip }

def loadEntry (n : Node) (hash : Uint256) : Node :=
  match n.find hash with
  | none => n
  | some e =>
    let e := e.recalc n.mapBlockIndex
    { n with
      mapBlockIndex := n.mapBlockIndex.set hash e
      mapBlocksUnlinked :=
        match e.pprev with
        | some p =>
          if e.hasData && nChainTxBelow n.mapBlockIndex e == 0 then
            n.mapBlocksUnlinked ++ [(p, hash)]
          else n.mapBlocksUnlinked
        | none => n.mapBlocksUnlinked
      setBlockIndexCandidates :=
        if e.isValid blockValidTransactions && (e.nChainTx != 0 || e.pprev.isNone) then
          hash :: n.setBlockIndexCandidates
        else n.setBlockIndexCandidates }

/-- `LoadBlockIndexDB` over the records and the best block of the coins database. -/
def loadBlockIndexDB (blockTree : Dict Uint256 CDiskBlockIndex) (bestBlock : Uint256) :
    Option Node :=
  (loadBlockIndexGuts par blockTree).bind fun n =>
    let n := (sortedByHeight proc n.mapBlockIndex).foldl loadEntry
      { n with blockTree := blockTree, bestBlock := bestBlock }
    if (n.find bestBlock).isNone then some n
    else
      let n := pruneBlockIndexCandidates proc (setTip n bestBlock)
      if n.setBlockIndexCandidates.isEmpty then none else some n

end Machine

end Scrypta.BlockIndex
