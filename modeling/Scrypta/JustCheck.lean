import Mathlib.Data.List.Sort
import Scrypta.ConnectBlock
import Scrypta.ScriptNum

/-! Blocks that are only to be checked. `TestBlockValidity` runs the checks of a new block and
then `ConnectBlock` on a scratch view; this module follows what these write besides, to the
database of the block tree, to the entries of the index and to the record of refused blocks. -/

namespace Scrypta.Validation

open Spork

/-! Entries of the block index and their records. -/

def blockHaveData : ℕ := 8
def blockHaveUndo : ℕ := 16
def blockFailedMask : ℕ := 96
def blockValidMask : ℕ := 7
def blockValidScripts : ℕ := 5

/-- The members of an index entry that its lineage does not fix. -/
structure IndexFields where
  nStatus : ℕ := 0
  nTx : ℕ := 0
  nFile : ℕ := 0
  nDataPos : ℕ := 0
  nUndoPos : ℕ := 0
  nMint : CAmount := 0
  nMoneySupply : CAmount := 0
  nFlags : ℕ := 0
  prevoutStake : COutPoint := COutPoint.null
  nStakeTime : ℕ := 0
  nVersion : ℤ := 0
  hashMerkleRoot : Uint256 := 0
  nNonce : BitVec 32 := 0
  deriving DecidableEq, Repr

/-- What is stored of an index entry. -/
structure CDiskBlockIndex extends IndexFields where
  nHeight : ℕ
  nStakeModifier : BitVec 64
  hashPrev : Uint256
  hashNext : Uint256 := 0
  nTime : BitVec 32
  nBits : BitVec 32
  deriving DecidableEq, Repr

/-- The checks of a block in its chain that this development does not model, and the hash of a
header: version, previous hash, Merkle root, time, bits and nonce. -/
structure Context where
  hashQuark : ℤ → Uint256 → Uint256 → BitVec 32 → BitVec 32 → BitVec 32 → Uint256
  maxReorganizationDepth : ℤ
  checkpointAllows : ℤ → Uint256 → Bool
  lastCheckpoint : Option ℤ
  /-- `IsSuperMajority` with the majority that rejects outdated blocks. -/
  rejectMajority : ℤ → CBlockIndex → Bool
  /-- `IsSuperMajority` with the majority that enforces an upgrade. -/
  enforceMajority : ℤ → CBlockIndex → Bool

namespace CDiskBlockIndex

def getBlockHash (ctx : Context) (d : CDiskBlockIndex) : Uint256 :=
  ctx.hashQuark d.nVersion d.hashPrev d.hashMerkleRoot d.nTime d.nBits d.nNonce

/-- What reading the record gives: file positions are kept only of data that is there, and of a
proof-of-work block no stake. -/
def stored (d : CDiskBlockIndex) : CDiskBlockIndex :=
  let fData := d.nStatus &&& blockHaveData ≠ 0
  let fUndo := d.nStatus &&& blockHaveUndo ≠ 0
  let fStake := d.nFlags &&& 1 ≠ 0
  { d with
    nFile := if fData ∨ fUndo then d.nFile else 0
    nDataPos := if fData then d.nDataPos else 0
    nUndoPos := if fUndo then d.nUndoPos else 0
    prevoutStake := if fStake then d.prevoutStake else COutPoint.null
    nStakeTime := if fStake then d.nStakeTime else 0 }

end CDiskBlockIndex

/-- An entry that is in the index, or a local one. -/
structure IndexEntry where
  index : CBlockIndex
  fields : IndexFields
  inIndex : Bool

/-- `CDiskBlockIndex(pindex)` -/
def IndexEntry.disk (e : IndexEntry) : CDiskBlockIndex where
  toIndexFields := e.fields
  nHeight := e.index.height
  nStakeModifier := e.index.nStakeModifier
  hashPrev := (e.index.parent?.map CBlockIndex.getBlockHash).getD 0
  nTime := e.index.label.nTime
  nBits := e.index.label.nBits

/-- `CBlockIndex(block)` over a previous entry; it has no hash. -/
def indexDummy (block : CBlock) (pindexPrev : CBlockIndex) : IndexEntry where
  index := .child pindexPrev ⟨0, block.nTime, block.nBits, block.isProofOfStake, false, 0⟩
  fields := {
    nFlags := if block.isProofOfStake then 1 else 0
    prevoutStake :=
      if block.isProofOfStake then ((block.vtx[1]?.bind (·.vin.head?)).map CTxIn.prevout).getD
        COutPoint.null
      else COutPoint.null
    nStakeTime := if block.isProofOfStake then block.nTime.toNat else 0
    nVersion := block.nVersion
    hashMerkleRoot := block.hashMerkleRoot
    nNonce := block.nNonce }
  inIndex := false

/-- The persistent and the shared state. -/
structure Shared where
  blockTree : Dict Uint256 CDiskBlockIndex
  txIndex : Dict Uint256 Uint256
  mapBlockIndex : Kernel.BlockMap
  fields : CBlockIndex → IndexFields
  pcoinsTip : CCoinsViewCache
  setDirtyBlockIndex : List CBlockIndex
  mapRejectedBlocks : Dict Uint256 ℤ

namespace Shared

/-- What the checks read of the state; the rest of the node is given. -/
def read (s : Shared) (env : Env) : Env :=
  { env with
    mapBlockIndex := s.mapBlockIndex
    nMoneySupply := fun b => (s.fields b).nMoneySupply }

def reject (s : Shared) (hash : Uint256) (nTime : ℤ) : Shared :=
  { s with mapRejectedBlocks := s.mapRejectedBlocks.insert hash nTime }

/-- A change of an entry, which is seen by others when the entry is in the index. -/
def store (s : Shared) (e : IndexEntry) : Shared :=
  if e.inIndex then { s with fields := Function.update s.fields e.index e.fields } else s

def writeTxIndex (s : Shared) (block : CBlock) : Shared :=
  { s with txIndex := block.vtx.foldl (fun m tx => m.set tx.getHash block.getHash) s.txIndex }

def insertDirty (s : Shared) (b : CBlockIndex) : Shared :=
  { s with setDirtyBlockIndex := b :: s.setDirtyBlockIndex.filter (· ≠ b) }

def writeBlockIndex (ctx : Context) (s : Shared) (e : IndexEntry) : Shared :=
  { s with blockTree := s.blockTree.set (e.disk.getBlockHash ctx) e.disk.stored }

end Shared

section Contextual

variable (par : Params) (env : Env) (ctx : Context)

def lockTimeThreshold : ℤ := 500000000

def isFinalTx (tx : CTransaction) (nBlockHeight nBlockTime : ℤ) : Bool :=
  if tx.nLockTime = 0 then true
  else
    let nBlockHeight := if nBlockHeight = 0 then env.chainActive.height else nBlockHeight
    let nBlockTime := if nBlockTime = 0 then env.adjustedTime else nBlockTime
    let nLockTime : ℤ := tx.nLockTime.toNat
    if nLockTime < (if nLockTime < lockTimeThreshold then nBlockHeight else nBlockTime) then true
    else tx.vin.all fun txin => txin.nSequence == BitVec.allOnes 32

/-- The median of the times of the block and up to ten blocks before it. -/
def getMedianTimePast (pindex : CBlockIndex) : ℤ :=
  let times := ((pindex.line.take 11).map CBlockIndex.getBlockTime).insertionSort (· ≤ ·)
  times.getD (times.length / 2) 0

def contextualCheckBlockHeader (block : CBlock) (pindexPrev : CBlockIndex) :
    Except Refusal Unit :=
  if block.getHash = par.hashGenesisBlock then .ok ()
  else do
    let nHeight : ℤ := pindexPrev.height + 1
    require (decide (env.chainActive.height - nHeight < ctx.maxReorganizationDepth)) (dos 1 "")
    require (decide (getMedianTimePast pindexPrev < block.getBlockTime)) (invalid "time-too-old")
    require (ctx.checkpointAllows nHeight block.getHash) (dos 100 "checkpoint mismatch")
    require (ctx.lastCheckpoint.all fun n => decide (n ≤ nHeight)) (dos 0 "")
    require (!(decide (block.nVersion < 2) && ctx.rejectMajority 2 pindexPrev))
      (invalid "bad-version")
    require (!(decide (block.nVersion < 3) && ctx.rejectMajority 3 pindexPrev))
      (invalid "bad-version")

/-- The script of the coinbase starts with the height. -/
def startsWithHeight (block : CBlock) (nHeight : ℤ) : Except Refusal Unit := do
  let coinbase ← present block.vtx.head?
  let txin ← present coinbase.vin.head?
  require ((ScriptNum.pushInt64 nHeight).isPrefixOf txin.scriptSig) (dos 100 "bad-cb-height")

def contextualCheckBlock (block : CBlock) (pindexPrev : CBlockIndex) : Except Refusal Unit := do
  let nHeight : ℤ := pindexPrev.height + 1
  require (block.vtx.all fun tx => isFinalTx env tx nHeight block.getBlockTime)
    (dos 10 "bad-txns-nonfinal")
  whenever (decide (2 ≤ block.nVersion) && ctx.enforceMajority 2 pindexPrev)
    (startsWithHeight block nHeight)

end Contextual

section Writes

variable (par : Params) (orc : Oracles) (env : Env) (ctx : Context) (disk : Disk) (fTxIndex : Bool)

/-- `CheckBlock` up to the transaction locks. -/
def beforeLocks (block : CBlock) (fCheckMerkleRoot : Bool) : Except Refusal Unit := do
  require (!block.isProofOfWork || orc.checkProofOfWork block.getHash block.nBits)
    (.dos 150 "bad-header" true)
  require (block.getBlockTime ≤ env.adjustedTime + if block.isProofOfStake then 180 else 7200)
    (invalid "time-too-new")
  whenever fCheckMerkleRoot (checkMerkleRoot orc block)
  require (!block.vtx.isEmpty && decide (block.vtx.length ≤ maxBlockSize) &&
    decide (block.getSerializeSize ≤ maxBlockSize)) (dos 100 "bad-blk-length")
  require ((block.vtx.head?.map CTransaction.isCoinBase).getD false) (dos 100 "bad-cb-missing")
  require (block.vtx.tail.all fun tx => !tx.isCoinBase) (dos 100 "bad-cb-multiple")
  whenever block.isProofOfStake (checkStakeShape block)

/-- No transaction conflicts with a lock, where locks are enforced. -/
def locksRespected (block : CBlock) : Bool :=
  !isSporkActive env.sporks spork3SwiftTxBlockFiltering || block.vtx.all (respectsLocks env)

/-- The payment is checked above a known block outside of the initial download. -/
def payeeChecked (block : CBlock) : Bool :=
  env.chainActive.tip.isSome && nHeightFor env block != 0 && !env.isInitialBlockDownload

/-- `CheckBlock` after the payment. -/
def afterPayee (block : CBlock) : Except Refusal Unit := do
  checkTransactions par block.vtx
  require ((block.vtx.map CTransaction.getLegacySigOpCount).sum ≤ maxBlockSigops)
    (.dos 100 "bad-blk-sigops" true)

/-- `CheckBlock` with the record of the blocks that it refuses for a lock or for the payee. -/
def Shared.checkBlock (s : Shared) (block : CBlock) (fCheckMerkleRoot : Bool) :
    Except Refusal Unit × Shared :=
  match beforeLocks orc (s.read env) block fCheckMerkleRoot with
  | .error r => (.error r, s)
  | .ok () =>
    if locksRespected (s.read env) block then
      if payeeChecked (s.read env) block then
        match isBlockPayeeValid par (s.read env) block (nHeightFor (s.read env) block) with
        | .error r => (.error r, s)
        | .ok false => (.error (dos 0 "bad-cb-payee"), s.reject block.getHash env.sporks.now)
        | .ok true => (afterPayee par block, s)
      else (afterPayee par block, s)
    else (.error (dos 0 "conflicting-tx-ix"), s.reject block.getHash env.sporks.now)

/-- `ConnectBlock` from the best block of the view to the end of the loop. -/
def connectInputs (block : CBlock) (pindex : CBlockIndex) (view : CCoinsViewCache) :
    Except Refusal (Tally × List CTxUndo) := do
  let nHeight : ℤ := pindex.height
  require (!(decide (nHeight ≤ par.nLastPOWBlock) && block.isProofOfStake))
    (dos 100 "PoS-early")
  require (!(decide (par.nLastPOWBlock < nHeight) && block.isProofOfWork))
    (dos 100 "PoW-ended")
  require (bip30Exempt pindex || overwritesNothing view block) (dos 100 "bad-txns-BIP30")
  connectTransactions par orc env nHeight (scriptFlags orc block pindex)
    (decide (orc.getTotalBlocksEstimate ≤ nHeight)) { view := view } block.vtx

def nMint (t : Tally) : CAmount := t.nValueOut - t.nValueIn

/-- `ConnectBlock` from the reward on. -/
def checkReward (block : CBlock) (nHeight : ℤ) (t : Tally) : Except Refusal Unit := do
  let nBlockValue ← present (env.getBlockValue par nHeight)
  let fValue ← returned
    (isBlockValueValid env block (nExpectedMint block nBlockValue t.nFees) (nMint t))
  require fValue (dos 100 "bad-cb-amount")
  enforceRecipients env block nHeight (nExpectedMint block nBlockValue t.nFees)
  require t.fScriptsOk (dos 100 "")

/-- The entry with the coins that the block created. -/
def IndexEntry.withMint (e : IndexEntry) (nMoneySupplyPrev : CAmount) (t : Tally) : IndexEntry :=
  { e with fields :=
      { e.fields with nMoneySupply := nMoneySupplyPrev + nMint t, nMint := nMint t } }

/-- `pindex->pprev->nMoneySupply` -/
def Shared.nMoneySupplyPrev (s : Shared) (e : IndexEntry) : CAmount :=
  (e.index.parent?.map fun b => (s.fields b).nMoneySupply).getD 0

/-- Undo data at the place found, and the entry raised to `BLOCK_VALID_SCRIPTS`. -/
def IndexEntry.raised (e : IndexEntry) (nUndoPos : ℕ) : IndexEntry :=
  let nStatus := e.fields.nStatus ||| blockHaveUndo
  { e with fields := { e.fields with
      nUndoPos := if e.fields.nStatus &&& blockHaveUndo ≠ 0 then e.fields.nUndoPos else nUndoPos
      nStatus :=
        if nStatus &&& blockFailedMask ≠ 0 then nStatus
        else if nStatus &&& blockValidMask < blockValidScripts then
          nStatus - (nStatus &&& blockValidMask) + blockValidScripts
        else nStatus } }

/-- The part of `ConnectBlock` that a block only to be checked does not come to. -/
def Shared.finishBlock (s : Shared) (block : CBlock) (e : IndexEntry) (nUndoPos : ℕ) :
    Except Refusal Unit × Shared :=
  let fHaveUndo := e.fields.nStatus &&& blockHaveUndo ≠ 0
  let fScripts := e.fields.nStatus &&& blockFailedMask = 0 ∧
    blockValidScripts ≤ e.fields.nStatus &&& blockValidMask
  if ¬ fHaveUndo ∧ disk.writeUndo = false then (.error .failed, s)
  else
    let s := if fHaveUndo ∧ fScripts then s
      else (s.store (e.raised nUndoPos)).insertDirty e.index
    if !fTxIndex then (.ok (), s)
    else if disk.writeTxIndex then
      (.ok (), s.writeTxIndex block)
    else (.error .failed, s)

def Shared.connectBlock (s : Shared) (block : CBlock) (e : IndexEntry) (view : CCoinsViewCache)
    (nUndoPos : ℕ) (fJustCheck : Bool) : Except Refusal Connected × Shared :=
  match s.checkBlock par orc env block (!fJustCheck) with
  | (.error r, s) => (.error r, s)
  | (.ok (), s) =>
    if (e.index.parent?.map CBlockIndex.getBlockHash).getD 0 ≠ view.hashBlock then
      (.error .crashed, s)
    else if block.getHash = par.hashGenesisBlock then
      -- a local entry has no hash to set
      if e.inIndex then (.ok ⟨view.setBestBlock e.index.getBlockHash, {}, 0, 0⟩, s)
      else (.error .crashed, s)
    else
      match connectInputs par orc (s.read env) block e.index view with
      | .error r => (.error r, s)
      | .ok (t, undos) =>
        let e := e.withMint (s.nMoneySupplyPrev e) t
        let s := s.store e
        if !disk.writeBlockIndex then (.error .failed, s)
        else
          let s := s.writeBlockIndex ctx e
          match checkReward par (s.read env) block e.index.height t with
          | .error r => (.error r, s)
          | .ok () =>
            if fJustCheck then (.ok ⟨t.view, ⟨undos.tail⟩, t.nFees, nMint t⟩, s)
            else
              match s.finishBlock disk fTxIndex block e nUndoPos with
              | (.error r, s) => (.error r, s)
              | (.ok (), s) => (.ok ⟨t.view.setBestBlock e.index.getBlockHash, ⟨undos.tail⟩,
                  t.nFees, nMint t⟩, s)

def Shared.testBlockValidity (s : Shared) (block : CBlock) (pindexPrev : CBlockIndex)
    (fCheckMerkleRoot : Bool) : Except Refusal Unit × Shared :=
  if env.chainActive.tip ≠ some pindexPrev then (.error .crashed, s)
  else
    match contextualCheckBlockHeader par (s.read env) ctx block pindexPrev with
    | .error r => (.error r, s)
    | .ok () =>
      match s.checkBlock par orc env block fCheckMerkleRoot with
      | (.error r, s) => (.error r, s)
      | (.ok (), s) =>
        match contextualCheckBlock (s.read env) ctx block pindexPrev with
        | .error r => (.error r, s)
        | .ok () =>
          -- the scratch view is never flushed
          match s.connectBlock par orc env ctx disk fTxIndex block (indexDummy block pindexPrev)
              s.pcoinsTip 0 true with
          | (.error r, s) => (.error r, s)
          | (.ok _, s) => (.ok (), s)

end Writes

/-! The answers are those of the checks alone. -/

section Answers

variable {par : Params} {orc : Oracles} {env : Env} {ctx : Context} {disk : Disk}
  {fTxIndex : Bool} {s : Shared} {block : CBlock}

theorem bind_of_error {α β : Type} {x : Except Refusal α} {r : Refusal} (h : x = .error r)
    (f : α → Except Refusal β) : (x >>= f) = .error r := by
  rw [h]
  rfl

theorem bind_of_ok {α β : Type} {x : Except Refusal α} {a : α} (h : x = .ok a)
    (f : α → Except Refusal β) : (x >>= f) = f a := by
  rw [h]
  rfl

theorem checkBlock_eq (fCheckMerkleRoot : Bool) :
    checkBlock par orc env block fCheckMerkleRoot = (do
      beforeLocks orc env block fCheckMerkleRoot
      require (locksRespected env block) (dos 0 "conflicting-tx-ix")
      checkPayee par env block
      afterPayee par block) := by
  simp only [checkBlock, beforeLocks, locksRespected, afterPayee, bind_assoc]

theorem checkPayee_eq : checkPayee par env block =
    if payeeChecked env block then do
      let fValid ← isBlockPayeeValid par env block (nHeightFor env block)
      require fValid (dos 0 "bad-cb-payee")
    else .ok () := rfl

theorem fst_checkBlock (fCheckMerkleRoot : Bool) :
    (s.checkBlock par orc env block fCheckMerkleRoot).1 =
      checkBlock par orc (s.read env) block fCheckMerkleRoot := by
  rw [checkBlock_eq, checkPayee_eq]
  unfold Shared.checkBlock
  split
  · next r hfirst => rw [bind_of_error hfirst]
  next hfirst =>
  rw [bind_of_ok hfirst]
  split
  · next hlocks =>
    rw [bind_of_ok ((require_ok (u := ())).mpr hlocks)]
    split
    · next hpayee =>
      split
      · next r hvalid => rw [bind_of_error (bind_of_error hvalid _)]
      · next hvalid => rw [bind_of_ok hvalid]; rfl
      · next hvalid => rw [bind_of_ok hvalid]; rfl
    · rfl
  · next hlocks =>
    rw [Bool.not_eq_true] at hlocks
    rw [hlocks]
    rfl

end Answers

/-! What is written. -/

/-- Both states answer alike, to the program and after a restart. -/
structure Shared.Same (s s' : Shared) : Prop where
  blockTree : ∀ hash, s'.blockTree.find hash = s.blockTree.find hash
  txIndex : ∀ hash, s'.txIndex.find hash = s.txIndex.find hash
  mapBlockIndex : ∀ hash, s'.mapBlockIndex.find hash = s.mapBlockIndex.find hash
  fields : s'.fields = s.fields
  pcoinsTip : s'.pcoinsTip = s.pcoinsTip
  setDirtyBlockIndex : s'.setDirtyBlockIndex = s.setDirtyBlockIndex
  mapRejectedBlocks : ∀ hash, s'.mapRejectedBlocks.find hash = s.mapRejectedBlocks.find hash

theorem Shared.Same.refl (s : Shared) : s.Same s :=
  ⟨fun _ => rfl, fun _ => rfl, fun _ => rfl, rfl, rfl, rfl, fun _ => rfl⟩

section Frame

variable (par : Params) (orc : Oracles) (env : Env) (ctx : Context) (disk : Disk)

/-- `CheckBlock` comes to the locks or to the payee and refuses the block for them. -/
def RefusedForLockOrPayee (block : CBlock) (fCheckMerkleRoot : Bool) : Prop :=
  beforeLocks orc env block fCheckMerkleRoot = .ok () ∧
    (locksRespected env block = false ∨ payeeChecked env block = true ∧
      isBlockPayeeValid par env block (nHeightFor env block) = .ok false)

/-- The block passes all checks up to the record of its entry, with the sums of its loop. -/
structure ComesToRecord (s : Shared) (block : CBlock) (pindexPrev : CBlockIndex)
    (fCheckMerkleRoot : Bool) (t : Tally) : Prop where
  header : contextualCheckBlockHeader par (s.read env) ctx block pindexPrev = .ok ()
  checked : checkBlock par orc (s.read env) block fCheckMerkleRoot = .ok ()
  contextual : contextualCheckBlock (s.read env) ctx block pindexPrev = .ok ()
  view : pindexPrev.getBlockHash = s.pcoinsTip.hashBlock
  notGenesis : block.getHash ≠ par.hashGenesisBlock
  inputs : ∃ undos, connectInputs par orc (s.read env) block (indexDummy block pindexPrev).index
    s.pcoinsTip = .ok (t, undos)
  disk : disk.writeBlockIndex = true

/-- The entry that is recorded for a block that is only to be checked. -/
def dummyRecord (s : Shared) (block : CBlock) (pindexPrev : CBlockIndex) (t : Tally) :
    IndexEntry :=
  (indexDummy block pindexPrev).withMint (s.fields pindexPrev).nMoneySupply t

/-- Testing a block writes nothing new: it is not refused for a lock or for the payee, or is
already known as refused; and it does not come to the record of its entry, or that very record is
stored. -/
structure TestsQuietly (s : Shared) (block : CBlock) (pindexPrev : CBlockIndex)
    (fCheckMerkleRoot : Bool) : Prop where
  rejected : contextualCheckBlockHeader par (s.read env) ctx block pindexPrev = .ok () →
    RefusedForLockOrPayee par orc (s.read env) block fCheckMerkleRoot →
    s.mapRejectedBlocks.count block.getHash = true
  recorded : ∀ t, ComesToRecord par orc env ctx disk s block pindexPrev fCheckMerkleRoot t →
    s.blockTree.find block.getHash = some (dummyRecord s block pindexPrev t).disk.stored

variable {par orc env ctx disk} {s : Shared} {block : CBlock} {pindexPrev : CBlockIndex}
  {fTxIndex : Bool}

theorem snd_checkBlock_of_refused {fCheckMerkleRoot : Bool}
    (h : RefusedForLockOrPayee par orc (s.read env) block fCheckMerkleRoot) :
    s.checkBlock par orc env block fCheckMerkleRoot =
        (.error (dos 0 "conflicting-tx-ix"), s.reject block.getHash env.sporks.now) ∨
      s.checkBlock par orc env block fCheckMerkleRoot =
        (.error (dos 0 "bad-cb-payee"), s.reject block.getHash env.sporks.now) := by
  obtain ⟨hfirst, hrest⟩ := h
  unfold Shared.checkBlock
  rw [hfirst]
  simp only
  cases hlocks : locksRespected (s.read env) block with
  | false => exact .inl rfl
  | true =>
    rcases hrest with hrest | ⟨hpayee, hvalid⟩
    · rw [hlocks] at hrest
      cases hrest
    · rw [if_pos rfl, if_pos hpayee, hvalid]
      exact .inr rfl

theorem snd_checkBlock_of_not_refused {fCheckMerkleRoot : Bool}
    (h : ¬ RefusedForLockOrPayee par orc (s.read env) block fCheckMerkleRoot) :
    (s.checkBlock par orc env block fCheckMerkleRoot).2 = s := by
  unfold Shared.checkBlock
  split
  · rfl
  next hfirst =>
  split
  · split
    · next hpayee =>
      split
      · rfl
      · next hvalid => exact absurd ⟨hfirst, .inr ⟨hpayee, hvalid⟩⟩ h
      · rfl
    · rfl
  · next hlocks => exact absurd ⟨hfirst, .inl (Bool.not_eq_true _ ▸ hlocks)⟩ h

/-- A block that passes with its Merkle root passes without. -/
theorem checkBlock_of_checkBlock {fCheckMerkleRoot : Bool}
    (h : checkBlock par orc env block fCheckMerkleRoot = .ok ()) :
    checkBlock par orc env block false = .ok () := by
  simp only [checkBlock, bind_ok, require_ok, whenever_ok] at h ⊢
  obtain ⟨_, h₁, _, h₂, _, -, hrest⟩ := h
  exact ⟨(), h₁, (), h₂, (), fun h => absurd h Bool.false_ne_true, hrest⟩

theorem checkBlock_of_ok {fCheckMerkleRoot : Bool}
    (h : checkBlock par orc (s.read env) block fCheckMerkleRoot = .ok ()) :
    s.checkBlock par orc env block fCheckMerkleRoot = (.ok (), s) := by
  have hfst : (s.checkBlock par orc env block fCheckMerkleRoot).1 = .ok () :=
    (fst_checkBlock fCheckMerkleRoot).trans h
  have hsnd : (s.checkBlock par orc env block fCheckMerkleRoot).2 = s := by
    refine snd_checkBlock_of_not_refused fun hrefused => ?_
    rcases snd_checkBlock_of_refused hrefused with heq | heq <;> rw [heq] at hfst <;> cases hfst
  exact Prod.ext hfst hsnd

theorem checkBlock_of_error {fCheckMerkleRoot : Bool} {r : Refusal}
    (h : checkBlock par orc (s.read env) block fCheckMerkleRoot = .error r)
    (hquiet : ¬ RefusedForLockOrPayee par orc (s.read env) block fCheckMerkleRoot) :
    s.checkBlock par orc env block fCheckMerkleRoot = (.error r, s) :=
  Prod.ext ((fst_checkBlock fCheckMerkleRoot).trans h) (snd_checkBlock_of_not_refused hquiet)

theorem same_reject_iff {hash : Uint256} {nTime : ℤ} :
    s.Same (s.reject hash nTime) ↔ s.mapRejectedBlocks.count hash = true := by
  constructor
  · intro h
    have hfind := h.mapRejectedBlocks hash
    rw [Shared.reject, Dict.find_insert, if_pos rfl] at hfind
    exact Dict.count_eq_true.mpr ⟨_, hfind.symm⟩
  · intro h
    obtain ⟨nTime', hfind⟩ := Dict.count_eq_true.mp h
    rw [Shared.reject, Dict.insert_of_some nTime hfind]
    exact Shared.Same.refl s

theorem same_writeBlockIndex_iff {e : IndexEntry} :
    s.Same (s.writeBlockIndex ctx e) ↔
      s.blockTree.find (e.disk.getBlockHash ctx) = some e.disk.stored := by
  constructor
  · intro h
    have hfind := h.blockTree (e.disk.getBlockHash ctx)
    rw [Shared.writeBlockIndex, Dict.find_set_self] at hfind
    exact hfind.symm
  · intro h
    refine { Shared.Same.refl s with blockTree := fun hash => ?_ }
    rw [Shared.writeBlockIndex, Dict.find_set]
    split
    · next heq => rw [heq, h]
    · rfl

/-- What `ConnectBlock` writes for a block that is only to be checked and that `CheckBlock`
accepts. -/
theorem snd_connectBlock (s : Shared) (ctx : Context) (disk : Disk) (fTxIndex : Bool)
    {e : IndexEntry} (view : CCoinsViewCache) (nUndoPos : ℕ)
    (he : e.inIndex = false) (hchecked : checkBlock par orc (s.read env) block false = .ok ()) :
    ((∃ t undos, (e.index.parent?.map CBlockIndex.getBlockHash).getD 0 = view.hashBlock ∧
        block.getHash ≠ par.hashGenesisBlock ∧
        connectInputs par orc (s.read env) block e.index view = .ok (t, undos) ∧
        disk.writeBlockIndex = true ∧
        (s.connectBlock par orc env ctx disk fTxIndex block e view nUndoPos true).2 =
          s.writeBlockIndex ctx (e.withMint (s.nMoneySupplyPrev e) t)) ∨
      (¬ ((e.index.parent?.map CBlockIndex.getBlockHash).getD 0 = view.hashBlock ∧
          block.getHash ≠ par.hashGenesisBlock ∧
          (∃ c, connectInputs par orc (s.read env) block e.index view = .ok c) ∧
          disk.writeBlockIndex = true) ∧
        (s.connectBlock par orc env ctx disk fTxIndex block e view nUndoPos true).2 = s)) := by
  unfold Shared.connectBlock
  rw [Bool.not_true, checkBlock_of_ok hchecked]
  simp only
  by_cases hview : (e.index.parent?.map CBlockIndex.getBlockHash).getD 0 = view.hashBlock
  swap
  · rw [if_pos hview]
    exact .inr ⟨fun h => hview h.1, rfl⟩
  rw [if_neg (not_not.mpr hview)]
  by_cases hgenesis : block.getHash = par.hashGenesisBlock
  · rw [if_pos hgenesis, he]
    exact .inr ⟨fun h => h.2.1 hgenesis, rfl⟩
  rw [if_neg hgenesis]
  cases hinputs : connectInputs par orc (s.read env) block e.index view with
  | error r => exact .inr ⟨fun ⟨_, _, ⟨_, h⟩, _⟩ => (nomatch h), rfl⟩
  | ok c =>
    obtain ⟨t, undos⟩ := c
    have hstore : s.store (e.withMint (s.nMoneySupplyPrev e) t) = s := by
      rw [Shared.store, IndexEntry.withMint, he]
      rfl
    simp only [hstore]
    cases hdisk : disk.writeBlockIndex with
    | false => exact .inr ⟨fun h => (nomatch h.2.2.2), rfl⟩
    | true =>
      refine .inl ⟨t, undos, hview, hgenesis, rfl, rfl, ?_⟩
      simp only [Bool.not_true, Bool.false_eq_true, if_false, if_true]
      split <;> rfl

theorem dummyRecord_eq (t : Tally) : (indexDummy block pindexPrev).withMint
    (s.nMoneySupplyPrev (indexDummy block pindexPrev)) t = dummyRecord s block pindexPrev t := rfl

theorem getBlockHash_dummyRecord (t : Tally) :
    (dummyRecord s block pindexPrev t).disk.getBlockHash ctx =
      ctx.hashQuark block.nVersion pindexPrev.getBlockHash block.hashMerkleRoot block.nTime
        block.nBits block.nNonce := rfl

/-- A block that has passed its first checks is recorded, or nothing is written. -/
theorem same_connectBlock_iff (disk : Disk) (fTxIndex : Bool) {fCheckMerkleRoot : Bool}
    (hheader : contextualCheckBlockHeader par (s.read env) ctx block pindexPrev = .ok ())
    (hchecked : checkBlock par orc (s.read env) block fCheckMerkleRoot = .ok ())
    (hcontextual : contextualCheckBlock (s.read env) ctx block pindexPrev = .ok ())
    (hhash : ∀ t, (dummyRecord s block pindexPrev t).disk.getBlockHash ctx = block.getHash) :
    s.Same (s.connectBlock par orc env ctx disk fTxIndex block (indexDummy block pindexPrev)
        s.pcoinsTip 0 true).2 ↔
      ∀ t, ComesToRecord par orc env ctx disk s block pindexPrev fCheckMerkleRoot t →
        s.blockTree.find block.getHash = some (dummyRecord s block pindexPrev t).disk.stored := by
  have hview : ((indexDummy block pindexPrev).index.parent?.map CBlockIndex.getBlockHash).getD 0 =
      pindexPrev.getBlockHash := rfl
  have hdummy : (indexDummy block pindexPrev).inIndex = false := rfl
  rcases snd_connectBlock s ctx disk fTxIndex s.pcoinsTip 0 hdummy
      (checkBlock_of_checkBlock hchecked) with
    ⟨t, undos, hbest, hgenesis, hinputs, hdisk, hstate⟩ | ⟨hnot, hstate⟩
  · rw [hstate, dummyRecord_eq, same_writeBlockIndex_iff, hhash]
    constructor
    · intro hstored t' ht'
      obtain ⟨undos', hinputs'⟩ := ht'.inputs
      obtain ⟨rfl, -⟩ := Prod.mk.inj (Except.ok.inj (hinputs.symm.trans hinputs'))
      exact hstored
    · intro h
      exact h t ⟨hheader, hchecked, hcontextual, hview.symm.trans hbest, hgenesis,
        ⟨undos, hinputs⟩, hdisk⟩
  · rw [hstate]
    refine iff_of_true (Shared.Same.refl s) fun t ht => absurd ?_ hnot
    obtain ⟨undos, hinputs⟩ := ht.inputs
    exact ⟨hview.trans ht.view, ht.notGenesis, ⟨_, hinputs⟩, ht.disk⟩

/-- Testing a block on the tip leaves the state as it was exactly when it writes nothing new. -/
theorem testBlockValidity_changes_nothing_iff (fTxIndex fCheckMerkleRoot : Bool)
    (htip : env.chainActive.tip = some pindexPrev)
    (hprev : block.hashPrevBlock = pindexPrev.getBlockHash)
    (hhash : block.getHash = ctx.hashQuark block.nVersion block.hashPrevBlock block.hashMerkleRoot
      block.nTime block.nBits block.nNonce) :
    s.Same (s.testBlockValidity par orc env ctx disk fTxIndex block pindexPrev
        fCheckMerkleRoot).2 ↔
      TestsQuietly par orc env ctx disk s block pindexPrev fCheckMerkleRoot := by
  have hkey : ∀ t, (dummyRecord s block pindexPrev t).disk.getBlockHash ctx = block.getHash :=
    fun t => by rw [getBlockHash_dummyRecord, hhash, hprev]
  have hsame := Shared.Same.refl s
  unfold Shared.testBlockValidity
  rw [if_neg (not_not.mpr htip)]
  cases hheader : contextualCheckBlockHeader par (s.read env) ctx block pindexPrev with
  | error r =>
    refine iff_of_true hsame ⟨fun h => ?_, fun t h => ?_⟩
    · exact nomatch hheader.symm.trans h
    · exact nomatch hheader.symm.trans h.header
  | ok u =>
  simp only
  by_cases hrefused : RefusedForLockOrPayee par orc (s.read env) block fCheckMerkleRoot
  · have hnot : checkBlock par orc (s.read env) block fCheckMerkleRoot ≠ .ok () := fun hok => by
      rcases snd_checkBlock_of_refused hrefused with heq | heq <;>
        exact nomatch (checkBlock_of_ok hok).symm.trans heq
    have hcount : s.Same (s.reject block.getHash env.sporks.now) ↔
        TestsQuietly par orc env ctx disk s block pindexPrev fCheckMerkleRoot :=
      same_reject_iff.trans ⟨fun h => ⟨fun _ _ => h, fun t ht => absurd ht.checked hnot⟩,
        fun h => h.rejected hheader hrefused⟩
    rcases snd_checkBlock_of_refused hrefused with heq | heq <;> rw [heq] <;> exact hcount
  cases hchecked : checkBlock par orc (s.read env) block fCheckMerkleRoot with
  | error r =>
    rw [checkBlock_of_error hchecked hrefused]
    exact iff_of_true hsame ⟨fun _ h => absurd h hrefused,
      fun t h => nomatch hchecked.symm.trans h.checked⟩
  | ok u =>
  rw [checkBlock_of_ok hchecked]
  simp only
  cases hcontextual : contextualCheckBlock (s.read env) ctx block pindexPrev with
  | error r =>
    exact iff_of_true hsame ⟨fun _ h => absurd h hrefused,
      fun t h => nomatch hcontextual.symm.trans h.contextual⟩
  | ok u =>
  have hconnect := same_connectBlock_iff disk fTxIndex hheader hchecked hcontextual hkey
  have hquiet : TestsQuietly par orc env ctx disk s block pindexPrev fCheckMerkleRoot ↔ _ :=
    ⟨TestsQuietly.recorded, fun h => ⟨fun _ hr => absurd hr hrefused, h⟩⟩
  rw [hquiet, ← hconnect]
  simp only
  split <;> next heq => rw [heq]

end Frame

/-! Templates on a short chain. -/

section Samples

private def shortTip : CBlockIndex := plainChain 10

private def template : CBlock :=
  { plainBlock 77 shortTip.getBlockHash [coinbaseOf 5 [⟨0, [0x51], 0⟩]] with nTime := 1500000060 }

/-- It spends an output that is locked for another transaction. -/
private def conflicting : CBlock :=
  { template with vtx := template.vtx ++ [spendOf 6 ⟨9, 0⟩ [⟨1, [0x51], 0⟩]] }

private def sampleContext : Context where
  hashQuark _ _ _ _ _ _ := 77
  maxReorganizationDepth := 100
  checkpointAllows _ _ := true
  lastCheckpoint := none
  rejectMajority _ _ := false
  enforceMajority _ _ := false

private def lockingEnv : Env :=
  { plainEnv shortTip Dict.empty Dict.empty with mapLockedInputs := Dict.empty.set ⟨9, 0⟩ 8 }

private def freshNode : Shared where
  blockTree := Dict.empty
  txIndex := Dict.empty
  mapBlockIndex := Dict.empty
  fields _ := { nMoneySupply := 450000 * coin }
  pcoinsTip := ⟨shortTip.getBlockHash, Dict.empty⟩
  setDirtyBlockIndex := []
  mapRejectedBlocks := Dict.empty

/-- What the test of a block on the short chain answers and leaves. -/
private def tested (block : CBlock) : Except Refusal Unit × Shared :=
  freshNode.testBlockValidity mainParams plainOracles lockingEnv sampleContext {} false block
    shortTip false

/-- A valid template leaves a record in the database of the block tree, and one with a conflicting
transaction an entry among the refused blocks. -/
theorem tested_templates_leave_traces :
    ((tested template).1 = .ok () ∧ ¬ freshNode.Same (tested template).2) ∧
      ((tested conflicting).1 = .error (dos 0 "conflicting-tx-ix") ∧
        ¬ freshNode.Same (tested conflicting).2) := by
  refine ⟨⟨by decide, fun h => ?_⟩, by decide, fun h => ?_⟩
  · have hnew : ((tested template).2.blockTree.find 77).isSome = true := by decide
    rw [h.blockTree] at hnew
    cases hnew
  · have hnew : ((tested conflicting).2.mapRejectedBlocks.find 77).isSome = true := by
      decide
    rw [h.mapRejectedBlocks] at hnew
    cases hnew

private def staleTemplate : CBlock := { template with nTime := 1500000000 }

/-- A template that is not younger than the blocks before it leaves nothing. -/
theorem testBlockValidity_changes_nothing_iff_sample :
    freshNode.Same (tested staleTemplate).2 := by
  have hheader : contextualCheckBlockHeader mainParams (freshNode.read lockingEnv) sampleContext
      staleTemplate shortTip = .error (invalid "time-too-old") := by
    decide
  refine (testBlockValidity_changes_nothing_iff false false rfl rfl rfl).mpr ⟨fun h => ?_,
    fun t h => ?_⟩
  · exact nomatch hheader.symm.trans h
  · exact nomatch hheader.symm.trans h.header

end Samples

end Scrypta.Validation
