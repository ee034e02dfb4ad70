import Scrypta.BlockTree

/-! The difficulty that a block has to have by its ancestors, and the check of a block's own
difficulty. -/

namespace Scrypta.ProofOfWork

structure Params where
  bnProofOfWorkLimit : Uint256
  nLastPOWBlock : ℤ
  nTargetSpacing : ℤ
  fSkipProofOfWorkCheck : Bool
  nLyraBadBlockTime : ℤ
  nLyraBadBlockBits : BitVec 32

/-- The number of bits up to the highest one that is set. -/
def bits (x : Uint256) : ℕ := if x = 0 then 0 else x.toNat.log2 + 1

def getCompact (x : Uint256) : BitVec 32 :=
  let nSize := (bits x + 7) / 8
  let nCompact : BitVec 32 :=
    if nSize ≤ 3 then (x.setWidth 64 <<< (8 * (3 - nSize))).setWidth 32
    else (x >>> (8 * (nSize - 3))).setWidth 32
  -- a mantissa with the sign bit set is shifted
  if nCompact &&& 0x00800000 ≠ 0 then (nCompact >>> 8) ||| (BitVec.ofNat 32 (nSize + 1) <<< 24)
  else nCompact ||| (BitVec.ofNat 32 nSize <<< 24)

/-- The factor of a product is stored in 32 bits. -/
def times (x : Uint256) (n : ℤ) : Uint256 := x * (BitVec.ofInt 32 n).setWidth 256

/-- The divisor of a quotient is stored in 64 bits. -/
def dividedBy (x : Uint256) (n : ℤ) : Uint256 := x / (BitVec.ofInt 64 n).setWidth 256

/-- After the last proof-of-work block the target moves with the time of one block. -/
def retargetStake (pindexLast : CBlockIndex) : BitVec 32 :=
  let bnTargetLimit := (~~~0 : Uint256) >>> 24
  let nTargetSpacing : ℤ := 60
  let nTargetTimespan : ℤ := 60 * 40
  let nActualSpacing : ℤ :=
    match pindexLast.parent? with
    | some pprev => pindexLast.getBlockTime - CBlockIndex.getBlockTime pprev
    | none => 0
  let nActualSpacing := if nActualSpacing < 0 then 1 else nActualSpacing
  let nInterval := nTargetTimespan / nTargetSpacing
  let bnNew := dividedBy (times (setCompact pindexLast.label.nBits)
    ((nInterval - 1) * nTargetSpacing + nActualSpacing + nActualSpacing))
    ((nInterval + 1) * nTargetSpacing)
  getCompact (if bnNew = 0 ∨ bnTargetLimit < bnNew then bnTargetLimit else bnNew)

/-- The running values of the scan of the last blocks. -/
structure Scan where
  countBlocks : ℤ
  pastDifficultyAverage : Uint256
  nActualTimespan : ℤ
  lastBlockTime : ℤ

def pastBlocks : ℤ := 24

def scanBlock (s : Scan) (blockReading : CBlockIndex) : Scan :=
  let countBlocks := s.countBlocks + 1
  let difficulty := setCompact blockReading.label.nBits
  { countBlocks := countBlocks
    pastDifficultyAverage :=
      if countBlocks ≤ pastBlocks then
        if countBlocks = 1 then difficulty
        else dividedBy (times s.pastDifficultyAverage countBlocks + difficulty) (countBlocks + 1)
      else s.pastDifficultyAverage
    nActualTimespan :=
      if 0 < s.lastBlockTime then
        s.nActualTimespan + (s.lastBlockTime - blockReading.getBlockTime)
      else s.nActualTimespan
    lastBlockTime := blockReading.getBlockTime }

def scanned (pindexLast : CBlockIndex) : List CBlockIndex :=
  (pindexLast.line.takeWhile fun b => 0 < b.height).take pastBlocks.toNat

def getNextWorkRequired (par : Params) (pindexLast : CBlockIndex) : BitVec 32 :=
  if pindexLast.height = 0 ∨ (pindexLast.height : ℤ) < pastBlocks then
    getCompact par.bnProofOfWorkLimit
  else if par.nLastPOWBlock < pindexLast.height then retargetStake pindexLast
  else
    let s := (scanned pindexLast).foldl scanBlock ⟨0, 0, 0, 0⟩
    let nTargetTimespan := s.countBlocks * par.nTargetSpacing
    let nActualTimespan := max s.nActualTimespan (nTargetTimespan.tdiv 3)
    let nActualTimespan := min nActualTimespan (nTargetTimespan * 3)
    let bnNew := dividedBy (times s.pastDifficultyAverage nActualTimespan) nTargetTimespan
    getCompact (if par.bnProofOfWorkLimit < bnNew then par.bnProofOfWorkLimit else bnNew)

/-- The hash is not looked at: its comparison with the target is commented out. -/
def checkProofOfWork (par : Params) (_hash : Uint256) (nBits : BitVec 32) : Bool :=
  if par.fSkipProofOfWorkCheck then true
  else
    let bnTarget := setCompact nBits
    !(compactNegative nBits || bnTarget == 0 || compactOverflow nBits ||
      decide (par.bnProofOfWorkLimit < bnTarget))

/-- The target that a block states is one that its work may have. -/
def ValidTarget (par : Params) (nBits : BitVec 32) : Prop :=
  par.fSkipProofOfWorkCheck = true ∨
    compactNegative nBits = false ∧ compactOverflow nBits = false ∧
      0 < setCompact nBits ∧ setCompact nBits ≤ par.bnProofOfWorkLimit

theorem checkProofOfWork_iff {par : Params} {hash : Uint256} {nBits : BitVec 32} :
    checkProofOfWork par hash nBits = true ↔ ValidTarget par nBits := by
  rw [checkProofOfWork, ValidTarget]
  by_cases hskip : par.fSkipProofOfWorkCheck = true
  · simp only [hskip, if_true, true_or]
  · rw [if_neg hskip]
    have hpos : 0 < setCompact nBits ↔ setCompact nBits ≠ 0 := by
      constructor
      · intro h h0
        rw [h0] at h
        exact absurd h (by decide)
      · intro h
        bv_omega
    simp only [hskip, Bool.not_eq_true', Bool.or_eq_false_iff, beq_eq_false_iff_ne,
      decide_eq_false_iff_not, BitVec.not_lt, hpos]
    tauto

end Scrypta.ProofOfWork
