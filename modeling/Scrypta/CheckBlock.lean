import Scrypta.BlockValue
import Scrypta.Script
import Scrypta.Toolkit.CompactSize

/-! `CheckBlock`: what a block has to satisfy before its inputs are looked at. -/

namespace Scrypta

def maxBlockSize : ℕ := 1000000
def maxBlockSigops : ℕ := maxBlockSize / 50

/-- A vector of bytes, with its length. -/
def vectorSize (v : Bytes) : ℕ := CompactSize.sizeOf v.length + v.length

namespace CTransaction

def getSerializeSize (tx : CTransaction) : ℕ :=
  4 + CompactSize.sizeOf tx.vin.length +
    (tx.vin.map fun txin => 36 + vectorSize txin.scriptSig + 4).sum +
    CompactSize.sizeOf tx.vout.length +
    (tx.vout.map fun txout => 8 + vectorSize txout.scriptPubKey).sum + 4

def getLegacySigOpCount (tx : CTransaction) : ℕ :=
  (tx.vin.map fun txin => Script.getSigOpCount false txin.scriptSig).sum +
    (tx.vout.map fun txout => Script.getSigOpCount false txout.scriptPubKey).sum

end CTransaction

def CBlock.getSerializeSize (block : CBlock) : ℕ :=
  80 + CompactSize.sizeOf block.vtx.length +
    (block.vtx.map CTransaction.getSerializeSize).sum +
    if block.isProofOfStake then vectorSize block.vchBlockSig else 0

namespace Validation

open Spork

/-- The functions under validation that are not part of this development: proof of work, the
Merkle root with its mutation flag, scripts under verification flags, the versions of the last
blocks, the height of the last checkpoint and whether scripts are checked by other threads. -/
structure Oracles where
  checkProofOfWork : Uint256 → BitVec 32 → Bool
  buildMerkleTree : List CTransaction → Uint256 × Bool
  verifyScript : CTransaction → ℕ → CScript → ℕ → Bool
  isSuperMajority : Option CBlockIndex → Bool
  getTotalBlocksEstimate : ℤ
  scriptCheckThreads : Bool

def moneyRange (par : Params) (nValue : CAmount) : Bool :=
  decide (0 ≤ nValue) && decide (nValue ≤ par.nMaxMoneyOut)

/-- The outputs of a transaction, with the sum of those before them. -/
def checkOutputs (par : Params) (tx : CTransaction) :
    List CTxOut → CAmount → Except Refusal Unit
  | [], _ => .ok ()
  | txout :: rest, nValueOut => do
    require (!(txout.isEmpty && !tx.isCoinBase && !tx.isCoinStake)) (dos 100 "")
    require (0 ≤ txout.nValue) (dos 100 "bad-txns-vout-negative")
    require (txout.nValue ≤ par.nMaxMoneyOut) (dos 100 "bad-txns-vout-toolarge")
    require (moneyRange par (nValueOut + txout.nValue))
      (dos 100 "bad-txns-txouttotal-toolarge")
    checkOutputs par tx rest (nValueOut + txout.nValue)

def scriptSigSize (tx : CTransaction) : ℕ := (tx.vin.map fun txin => txin.scriptSig.length).headD 0

def checkTransaction (par : Params) (tx : CTransaction) : Except Refusal Unit := do
  require (!tx.vin.isEmpty) (dos 10 "bad-txns-vin-empty")
  require (!tx.vout.isEmpty) (dos 10 "bad-txns-vout-empty")
  require (tx.getSerializeSize ≤ maxBlockSize) (dos 100 "bad-txns-oversize")
  checkOutputs par tx tx.vout 0
  require (decide tx.prevouts.Nodup) (dos 100 "bad-txns-inputs-duplicate")
  whenever tx.isCoinBase
    (require (decide (2 ≤ scriptSigSize tx) && decide (scriptSigSize tx ≤ 150))
      (dos 100 "bad-cb-length"))
  whenever (!tx.isCoinBase)
    (require (tx.vin.all fun txin => !txin.prevout.isNull) (dos 10 "bad-txns-prevout-null"))

def checkTransactions (par : Params) : List CTransaction → Except Refusal Unit
  | [] => .ok ()
  | tx :: rest => do
    checkTransaction par tx
    checkTransactions par rest

/-- No input is locked for another transaction. -/
def respectsLocks (env : Env) (tx : CTransaction) : Bool :=
  tx.isCoinBase || tx.vin.all fun txin =>
    match env.mapLockedInputs.find txin.prevout with
    | none => true
    | some hash => hash == tx.getHash

/-- The shape of a proof-of-stake block: an empty coinbase, then the only coinstake. -/
def checkStakeShape (block : CBlock) : Except Refusal Unit := do
  require (match block.vtx with
    | coinbase :: _ => match coinbase.vout with
      | [txout] => txout.isEmpty
      | _ => false
    | [] => false) (dos 100 "")
  require ((block.vtx.drop 2).all fun tx => !tx.isCoinStake) (dos 100 "")

section CheckBlock

variable (par : Params) (orc : Oracles) (env : Env)

def checkMerkleRoot (block : CBlock) : Except Refusal Unit := do
  require (block.hashMerkleRoot == (orc.buildMerkleTree block.vtx).1)
    (.dos 100 "bad-txnmrklroot" true)
  require (!(orc.buildMerkleTree block.vtx).2) (.dos 100 "bad-txns-duplicate" true)

/-- The masternode or budget payment, checked for a block above a known one. -/
def checkPayee (block : CBlock) : Except Refusal Unit :=
  whenever (env.chainActive.tip.isSome && nHeightFor env block != 0 &&
      !env.isInitialBlockDownload) do
    let fValid ← isBlockPayeeValid par env block (nHeightFor env block)
    require fValid (dos 0 "bad-cb-payee")

def checkBlock (block : CBlock) (fCheckMerkleRoot : Bool) : Except Refusal Unit := do
  require (!block.isProofOfWork || orc.checkProofOfWork block.getHash block.nBits)
    (.dos 150 "bad-header" true)
  require (block.getBlockTime ≤ env.adjustedTime + if block.isProofOfStake then 180 else 7200)
    (invalid "time-too-new")
  whenever fCheckMerkleRoot (checkMerkleRoot orc block)
  require (!block.vtx.isEmpty && decide (block.vtx.length ≤ maxBlockSize) &&
    decide (block.getSerializeSize ≤ maxBlockSize)) (dos 100 "bad-blk-length")
  require ((block.vtx.head?.map CTransaction.isCoinBase).getD false) (dos 100 "bad-cb-missing")
  require (block.vtx.tail.all fun tx => !tx.isCoinBase) (dos 100 "bad-cb-multiple")
  whenever block.isProofOfStake (checkStakeShape block)
  require (!isSporkActive env.sporks spork3SwiftTxBlockFiltering ||
    block.vtx.all (respectsLocks env)) (dos 0 "conflicting-tx-ix")
  checkPayee par env block
  checkTransactions par block.vtx
  require ((block.vtx.map CTransaction.getLegacySigOpCount).sum ≤ maxBlockSigops)
    (.dos 100 "bad-blk-sigops" true)

end CheckBlock

/-- What a checked block satisfies. -/
structure Checked (par : Params) (env : Env) (block : CBlock) : Prop where
  size : block.getSerializeSize ≤ maxBlockSize
  coinbase : ∃ cb rest, block.vtx = cb :: rest ∧ cb.isCoinBase = true ∧
    ∀ tx ∈ rest, tx.isCoinBase = false
  payee : checkPayee par env block = .ok ()
  transactions : ∀ tx ∈ block.vtx, checkTransaction par tx = .ok ()

theorem checkTransactions_ok {par : Params} {vtx : List CTransaction} {u : Unit}
    (h : checkTransactions par vtx = .ok u) : ∀ tx ∈ vtx, checkTransaction par tx = .ok () := by
  induction vtx with
  | nil => exact fun tx htx => nomatch htx
  | cons tx vtx ih =>
    simp only [checkTransactions, bind_ok] at h
    obtain ⟨_, hone, hrest⟩ := h
    intro tx' htx'
    rcases List.mem_cons.mp htx' with rfl | hmem
    · exact hone
    · exact ih hrest tx' hmem

theorem checkBlock_ok {par : Params} {orc : Oracles} {env : Env} {block : CBlock}
    {fCheckMerkleRoot : Bool} {u : Unit}
    (h : checkBlock par orc env block fCheckMerkleRoot = .ok u) : Checked par env block := by
  simp only [checkBlock, bind_ok, require_ok, whenever_ok] at h
  obtain ⟨_, -, _, -, _, -, _, hsize, _, hfirst, _, hothers, _, -, _, -, _, hpayee, _, htxs, -⟩ := h
  refine ⟨?_, ?_, hpayee, checkTransactions_ok htxs⟩
  · simp only [Bool.and_eq_true, decide_eq_true_eq] at hsize
    exact hsize.2
  · cases hvtx : block.vtx with
    | nil => simp [hvtx] at hfirst
    | cons cb rest =>
      simp only [hvtx, List.head?_cons, Option.map_some, Option.getD_some, List.tail_cons,
        List.all_eq_true, Bool.not_eq_true'] at hfirst hothers
      exact ⟨cb, rest, rfl, hfirst, hothers⟩

/-- A node that is not in its initial download has checked the payment of the block. -/
theorem checkPayee_ok {par : Params} {env : Env} {block : CBlock} {tip : CBlockIndex}
    (htip : env.chainActive.tip = some tip) (hheight : nHeightFor env block ≠ 0)
    (hdownload : env.isInitialBlockDownload = false)
    (h : checkPayee par env block = .ok ()) :
    isBlockPayeeValid par env block (nHeightFor env block) = .ok true := by
  simp only [checkPayee, whenever_ok, bind_ok, require_ok] at h
  obtain ⟨b, hb, rfl⟩ := h (by simp [htip, hheight, hdownload])
  exact hb

end Validation

end Scrypta
