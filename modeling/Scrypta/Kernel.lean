import Mathlib.Data.List.Sort
import Scrypta.BlockTree
import Scrypta.Toolkit.Dict
import Scrypta.Toolkit.LittleEndian

/-! Stake modifiers and the stake kernel. A block's modifier is computed from its ancestors
when it enters the index; the kernel of a stake is hashed with a modifier that was generated
a selection interval after the block of the staked coin. -/

namespace Scrypta.Kernel

open LittleEndian

abbrev BlockMap := Dict Uint256 CBlockIndex

/-- `Hash` is the double SHA-256; `literal` is the address of the string literal that the
program casts to the modifier of the first block. -/
structure Params where
  Hash : Bytes → Uint256
  literal : BitVec 64
  modifierUpgradeBlock : ℕ

def modifierInterval : ℕ := 60
def modifierIntervalRatio : ℕ := 3
def nStakeMinAge : BitVec 32 := 60 * 60

def getStakeModifierSelectionIntervalSection (nSection : ℕ) : ℤ :=
  (modifierInterval * 63 / (63 + (63 - nSection) * (modifierIntervalRatio - 1)) : ℕ)

def getStakeModifierSelectionInterval : ℤ :=
  ((List.range 64).map getStakeModifierSelectionIntervalSection).sum

/-- The last modifier and the time of the block that generated it. -/
def getLastStakeModifier : CBlockIndex → Option (BitVec 64 × ℤ)
  | .root a =>
    if a.fGeneratedStakeModifier then some (a.nStakeModifier, a.nTime.toNat) else none
  | .child p a =>
    if a.fGeneratedStakeModifier then some (a.nStakeModifier, a.nTime.toNat)
    else getLastStakeModifier p

section Selection

variable (par : Params) (mapBlockIndex : BlockMap)

def selectionHash (fModifierV2 : Bool) (nStakeModifierPrev : BitVec 64) (pindex : CBlockIndex) :
    Uint256 :=
  let hashProof : Uint256 :=
    if fModifierV2 then pindex.getBlockHash
    else if pindex.isProofOfStake then 0 else pindex.getBlockHash
  let h := par.Hash (encode 32 hashProof.toNat ++ encode 8 nStakeModifierPrev.toNat)
  if pindex.isProofOfStake then h >>> 32 else h

/-- The scan of the candidates, with the best block so far and its selection hash. -/
def selectLoop (fModifierV2 : Bool) (mapSelectedBlocks : List Uint256)
    (nSelectionIntervalStop : ℤ) (nStakeModifierPrev : BitVec 64) :
    List (ℤ × Uint256) → Option (CBlockIndex × Uint256) → Option (Option (CBlockIndex × Uint256))
  | [], best => some best
  | item :: rest, best =>
    match mapBlockIndex.find item.2 with
    | none => none
    | some pindex =>
      if best.isSome && nSelectionIntervalStop < pindex.getBlockTime then some best
      else if mapSelectedBlocks.contains pindex.getBlockHash then
        selectLoop fModifierV2 mapSelectedBlocks nSelectionIntervalStop nStakeModifierPrev rest best
      else
        let h := selectionHash par fModifierV2 nStakeModifierPrev pindex
        let better := match best with
          | none => true
          | some (_, hashBest) => h < hashBest
        selectLoop fModifierV2 mapSelectedBlocks nSelectionIntervalStop nStakeModifierPrev rest
          (if better then some (pindex, h) else best)

def selectBlockFromCandidates (vSortedByTimestamp : List (ℤ × Uint256))
    (mapSelectedBlocks : List Uint256) (nSelectionIntervalStop : ℤ)
    (nStakeModifierPrev : BitVec 64) : Option CBlockIndex :=
  let first := vSortedByTimestamp.head?.bind fun item => mapBlockIndex.find item.2
  let fModifierV2 := first.any fun pindex => par.modifierUpgradeBlock ≤ pindex.height
  (selectLoop par mapBlockIndex fModifierV2 mapSelectedBlocks nSelectionIntervalStop
    nStakeModifierPrev vSortedByTimestamp none).join.map (·.1)

structure Rounds where
  nSelectionIntervalStop : ℤ
  nStakeModifierNew : BitVec 64
  mapSelectedBlocks : List Uint256

def selectionRound (vSortedByTimestamp : List (ℤ × Uint256)) (nStakeModifierPrev : BitVec 64)
    (r : Rounds) (nRound : ℕ) : Option Rounds :=
  let stop := r.nSelectionIntervalStop + getStakeModifierSelectionIntervalSection nRound
  match selectBlockFromCandidates par mapBlockIndex vSortedByTimestamp r.mapSelectedBlocks stop
      nStakeModifierPrev with
  | none => none
  | some pindex => some {
      nSelectionIntervalStop := stop
      nStakeModifierNew :=
        r.nStakeModifierNew ||| (BitVec.ofBool pindex.getStakeEntropyBit).setWidth 64 <<< nRound
      mapSelectedBlocks := pindex.getBlockHash :: r.mapSelectedBlocks }

/-- Earlier time first, then the smaller hash. -/
def candidateLe (a b : ℤ × Uint256) : Prop := a.1 < b.1 ∨ (a.1 = b.1 ∧ a.2 ≤ b.2)

instance : DecidableRel candidateLe := fun _ _ => inferInstanceAs (Decidable (_ ∨ _))

def sortedCandidates (pindexPrev : CBlockIndex) (nSelectionIntervalStart : ℤ) :
    List (ℤ × Uint256) :=
  ((pindexPrev.line.takeWhile fun b : CBlockIndex =>
    decide (nSelectionIntervalStart ≤ b.getBlockTime)).reverse.map
      fun b : CBlockIndex => (b.getBlockTime, b.getBlockHash)).insertionSort candidateLe

/-- The modifier of the block after `pindexPrev`, and whether that block generates it. When
the selection fails the block keeps the last modifier. -/
def computeNextStakeModifier (pindexPrev : CBlockIndex) : BitVec 64 × Bool :=
  if pindexPrev.height = 0 then (par.literal, true)
  else match getLastStakeModifier pindexPrev with
    | none => (0, false)
    | some (nStakeModifier, nModifierTime) =>
      if pindexPrev.getBlockTime / modifierInterval ≤ nModifierTime / modifierInterval then
        (nStakeModifier, false)
      else
        let start := pindexPrev.getBlockTime / modifierInterval * modifierInterval -
          getStakeModifierSelectionInterval
        let candidates := sortedCandidates pindexPrev start
        match (List.range (min 64 candidates.length)).foldlM
            (selectionRound par mapBlockIndex candidates nStakeModifier) ⟨start, 0, []⟩ with
        | none => (nStakeModifier, false)
        | some r => (r.nStakeModifierNew, true)

/-- The index entry of a new block. A block without a parent in the index has no modifier. -/
def newBlockIndex (block : CBlock) : CBlockIndex :=
  match mapBlockIndex.find block.hashPrevBlock with
  | none => .root ⟨block.hash, block.nTime, block.nBits, block.isProofOfStake, false, 0⟩
  | some pprev =>
    let next := computeNextStakeModifier par mapBlockIndex pprev
    .child pprev ⟨block.hash, block.nTime, block.nBits, block.isProofOfStake, next.2, next.1⟩

def addToBlockIndex (block : CBlock) : BlockMap :=
  mapBlockIndex.insert block.hash (newBlockIndex par mapBlockIndex block)

variable {par mapBlockIndex}

theorem newBlockIndex_child {block : CBlock} {pprev : CBlockIndex} {next : BitVec 64 × Bool}
    (h : mapBlockIndex.find block.hashPrevBlock = some pprev)
    (hnext : computeNextStakeModifier par mapBlockIndex pprev = next) :
    newBlockIndex par mapBlockIndex block = .child pprev
      ⟨block.hash, block.nTime, block.nBits, block.isProofOfStake, next.2, next.1⟩ := by
  simp only [newBlockIndex, h, hnext]

/-- The modifier is kept as long as the chain stays in the interval that generated it. -/
theorem computeNextStakeModifier_of_young {b : CBlockIndex} {m : BitVec 64} {t : ℤ}
    (hb : b.height ≠ 0) (hlast : getLastStakeModifier b = some (m, t))
    (ht : b.getBlockTime / modifierInterval ≤ t / modifierInterval) :
    computeNextStakeModifier par mapBlockIndex b = (m, false) := by
  simp only [computeNextStakeModifier, hb, hlast, ht, if_true, if_false]

/-- With a single candidate the selection succeeds, whatever the hash function. -/
theorem computeNextStakeModifier_of_single {b : CBlockIndex} {m : BitVec 64} {t : ℤ}
    (hb : b.height ≠ 0) (hlast : getLastStakeModifier b = some (m, t))
    (ht : t / modifierInterval < b.getBlockTime / modifierInterval)
    (hcand : sortedCandidates b (b.getBlockTime / modifierInterval * modifierInterval -
      getStakeModifierSelectionInterval) = [(b.getBlockTime, b.getBlockHash)])
    (hfind : mapBlockIndex.find b.getBlockHash = some b) :
    (computeNextStakeModifier par mapBlockIndex b).2 = true := by
  simp [computeNextStakeModifier, hb, hlast, Int.not_le.mpr ht, hcand, selectionRound,
    selectBlockFromCandidates, selectLoop, hfind, List.range_succ]

end Selection

/-! The kernel. -/

structure KernelModifier where
  nStakeModifier : BitVec 64
  nStakeModifierHeight : ℕ
  nStakeModifierTime : ℤ
  deriving DecidableEq, Repr

/-- The loop of `GetKernelStakeModifier` over the blocks of the active chain that follow
`pindex`; `nStop` is the time from which a modifier is late enough. -/
def kernelModifierLoop (nStop : ℤ) :
    List CBlockIndex → CBlockIndex → ℕ → ℤ → Option KernelModifier
  | following, pindex, nStakeModifierHeight, nStakeModifierTime =>
    if nStakeModifierTime < nStop then
      match following with
      | [] => none
      | next :: following =>
        if next.generatedStakeModifier then
          kernelModifierLoop nStop following next next.height next.getBlockTime
        else kernelModifierLoop nStop following next nStakeModifierHeight nStakeModifierTime
    else some ⟨pindex.nStakeModifier, nStakeModifierHeight, nStakeModifierTime⟩

def getKernelStakeModifier (mapBlockIndex : BlockMap) (chainActive : CChain)
    (hashBlockFrom : Uint256) : Option KernelModifier :=
  match mapBlockIndex.find hashBlockFrom with
  | none => none
  | some pindexFrom =>
    kernelModifierLoop (pindexFrom.getBlockTime + getStakeModifierSelectionInterval)
      (chainActive.vChain.drop (pindexFrom.height + 1)) pindexFrom pindexFrom.height
      pindexFrom.getBlockTime

def stakeHash (Hash : Bytes → Uint256) (nTimeTx : BitVec 32) (nStakeModifier : BitVec 64)
    (prevout : COutPoint) (nTimeBlockFrom : BitVec 32) : Uint256 :=
  Hash (encode 8 nStakeModifier.toNat ++ encode 4 nTimeBlockFrom.toNat ++
    encode 4 prevout.n.toNat ++ encode 32 prevout.hash.toNat ++ encode 4 nTimeTx.toNat)

def stakeTargetHit (hashProofOfStake : Uint256) (nValueIn : CAmount)
    (bnTargetPerCoinDay : Uint256) : Bool :=
  let bnCoinDayWeight : Uint256 := (BitVec.ofInt 64 nValueIn).setWidth 256 / 100
  hashProofOfStake < bnCoinDayWeight * bnTargetPerCoinDay

/-- The verdict, the transaction time, and the proof hash if one was computed. -/
structure KernelResult where
  verdict : Bool
  nTimeTx : BitVec 32
  hashProofOfStake : Option Uint256
  deriving DecidableEq, Repr

/-- The hashing of a search: the times from `nTimeTx + nHashDrift` down, the first hit stops
it. The last argument counts the times that are left. -/
def searchLoop (nTimeTx nHashDrift : BitVec 32) (hashAt : BitVec 32 → Uint256)
    (hit : Uint256 → Bool) (last : Option Uint256) : ℕ → KernelResult
  | 0 => ⟨false, nTimeTx, last⟩
  | n + 1 =>
    let i := nHashDrift - BitVec.ofNat 32 (n + 1)
    let nTryTime := nTimeTx + nHashDrift - i
    if hit (hashAt nTryTime) then ⟨true, nTryTime, some (hashAt nTryTime)⟩
    else searchLoop nTimeTx nHashDrift hashAt hit (some (hashAt nTryTime)) n

/-- Nothing is returned when the output that `prevout` names does not exist. -/
def checkStakeKernelHash (Hash : Bytes → Uint256) (mapBlockIndex : BlockMap)
    (chainActive : CChain) (nBits : BitVec 32) (blockFrom : CBlock) (txPrev : CTransaction)
    (prevout : COutPoint) (nTimeTx nHashDrift : BitVec 32) (fCheck : Bool) :
    Option KernelResult :=
  match txPrev.vout[prevout.n.toNat]? with
  | none => none
  | some out =>
    let nTimeBlockFrom := blockFrom.nTime
    if nTimeTx < nTimeBlockFrom then some ⟨false, nTimeTx, none⟩
    else if nTimeTx < nTimeBlockFrom + nStakeMinAge then some ⟨false, nTimeTx, none⟩
    else match getKernelStakeModifier mapBlockIndex chainActive blockFrom.getHash with
      | none => some ⟨false, nTimeTx, none⟩
      | some m =>
        let hashAt (t : BitVec 32) := stakeHash Hash t m.nStakeModifier prevout nTimeBlockFrom
        let hit (h : Uint256) := stakeTargetHit h out.nValue (setCompact nBits)
        if fCheck then some ⟨hit (hashAt nTimeTx), nTimeTx, some (hashAt nTimeTx)⟩
        else some (searchLoop nTimeTx nHashDrift hashAt hit none nHashDrift.toNat)

end Scrypta.Kernel
