import Mathlib.Tactic.Linarith
import Scrypta.CheckBlock
import Scrypta.Coins

/-! `ConnectBlock`: the transactions of a block are applied to a view of the coins one after the
other, then the coins that the block created are compared with what it may create. -/

namespace Scrypta.Validation

open Spork Budget

/-! Verification flags of scripts. -/

def scriptVerifyNone : ℕ := 0
def scriptVerifyP2SH : ℕ := 1
def scriptVerifyDersig : ℕ := 4

def nBIP16SwitchTime : ℤ := 1333238400

section Inputs

variable (par : Params) (orc : Oracles) (env : Env)

/-- The first loop of `CheckInputs`, with the value of the inputs so far. -/
def checkInputValues (nSpendHeight : ℤ) (view : CCoinsViewCache) :
    List CTxIn → CAmount → Except Refusal CAmount
  | [], nValueIn => .ok nValueIn
  | txin :: vin, nValueIn => do
    let coins ← present (view.accessCoins txin.prevout.hash)
    require (!(coins.fCoinBase || coins.fCoinStake) ||
      decide (par.nMaturity ≤ nSpendHeight - coins.nHeight))
      (invalid "bad-txns-premature-spend-of-coinbase")
    let txout := coins.vout.getD txin.prevout.n.toNat CTxOut.null
    require (moneyRange par txout.nValue && moneyRange par (nValueIn + txout.nValue))
      (dos 100 "bad-txns-inputvalues-outofrange")
    checkInputValues nSpendHeight view vin (nValueIn + txout.nValue)

/-- The script of one input, under the flags. -/
def scriptCheck (view : CCoinsViewCache) (flags : ℕ) (tx : CTransaction) (nIn : ℕ)
    (txin : CTxIn) : Bool :=
  orc.verifyScript tx nIn (view.getOutputFor txin).scriptPubKey flags

/-- Scripts that are run at once: the first failure decides, and one that comes from the
signature format alone is not punished. -/
def runScripts (view : CCoinsViewCache) (flags : ℕ) (tx : CTransaction) :
    List (CTxIn × ℕ) → Except Refusal Unit
  | [] => .ok ()
  | (txin, nIn) :: rest =>
    if scriptCheck orc view flags tx nIn txin then runScripts view flags tx rest
    else if flags &&& scriptVerifyDersig ≠ 0 ∧
        scriptCheck orc view (flags &&& scriptVerifyP2SH) tx nIn txin = true then
      .error (invalid "non-mandatory-script-verify-flag")
    else .error (dos 100 "mandatory-script-verify-flag-failed")

/-- Scripts that are left to other threads: what these will find. -/
def queuedScripts (view : CCoinsViewCache) (flags : ℕ) (tx : CTransaction) : Bool :=
  tx.vin.zipIdx.all fun i => scriptCheck orc view flags tx i.2 i.1

/-- The outputs of an ordinary transaction are covered by its inputs. -/
def checkFee (nValueIn : CAmount) (tx : CTransaction) : Except Refusal Unit :=
  if tx.isCoinStake then .ok ()
  else do
    let nValueOut ← present tx.getValueOut
    require (nValueOut ≤ nValueIn) (dos 100 "bad-txns-in-belowout")
    require (moneyRange par (nValueIn - nValueOut)) (dos 100 "bad-txns-fee-outofrange")

/-- `CheckInputs` for a block; the result is what the queued script checks will find. -/
def checkInputs (tx : CTransaction) (view : CCoinsViewCache) (fScriptChecks : Bool)
    (flags : ℕ) : Except Refusal Bool :=
  if tx.isCoinBase then .ok true
  else do
    require (view.haveInputs tx) (invalid "")
    let pindexPrev ← present (env.mapBlockIndex.find view.hashBlock)
    let nValueIn ← checkInputValues par (pindexPrev.height + 1) view tx.vin 0
    checkFee par nValueIn tx
    if !fScriptChecks then pure true
    else if orc.scriptCheckThreads then pure (queuedScripts orc view flags tx)
    else do
      runScripts orc view flags tx tx.vin.zipIdx
      pure true

end Inputs

/-- What the loop over the transactions carries along. -/
structure Tally where
  view : CCoinsViewCache
  nFees : CAmount := 0
  nValueIn : CAmount := 0
  nValueOut : CAmount := 0
  nSigOps : ℕ := 0
  fScriptsOk : Bool := true

/-- The outcome of writing to the block database and to the undo file. -/
structure Disk where
  writeBlockIndex : Bool := true
  writeUndo : Bool := true
  writeTxIndex : Bool := true

/-- A connected block: the view after it, the undo data that restores the view before it, and
the coins it created. -/
structure Connected where
  view : CCoinsViewCache
  blockundo : CBlockUndo
  nFees : CAmount
  nMint : CAmount

section Loop

variable (par : Params) (orc : Oracles) (env : Env)

def getP2SHSigOpCount (tx : CTransaction) (view : CCoinsViewCache) : ℕ :=
  if tx.isCoinBase then 0
  else (tx.vin.map fun txin =>
    let prevout := view.getOutputFor txin
    if Script.isPayToScriptHash prevout.scriptPubKey then
      Script.getSigOpCountFor prevout.scriptPubKey txin.scriptSig
    else 0).sum

/-- The fees with that of one more transaction; a coinstake has none. -/
def addFee (nFees nValueIn : CAmount) (tx : CTransaction) : Except Refusal CAmount :=
  if tx.isCoinStake then .ok nFees
  else do
    let nValueOut ← present tx.getValueOut
    pure (nFees + (nValueIn - nValueOut))

/-- The checks and sums of a transaction that has inputs. -/
def tallyInputs (flags : ℕ) (fScriptChecks : Bool) (t : Tally) (tx : CTransaction) :
    Except Refusal Tally :=
  if tx.isCoinBase then .ok t
  else do
    require (t.view.haveInputs tx) (dos 100 "bad-txns-inputs-missingorspent")
    let nSigOps :=
      if flags &&& scriptVerifyP2SH ≠ 0 then t.nSigOps + getP2SHSigOpCount tx t.view
      else t.nSigOps
    require (nSigOps ≤ maxBlockSigops) (dos 100 "bad-blk-sigops")
    let nValueIn := t.view.getValueIn tx
    let nFees ← addFee t.nFees nValueIn tx
    let fScriptsOk ← checkInputs par orc env tx t.view fScriptChecks flags
    pure { t with
      nSigOps := nSigOps
      nFees := nFees
      nValueIn := t.nValueIn + nValueIn
      fScriptsOk := t.fScriptsOk && fScriptsOk }

def connectTransaction (nHeight : ℤ) (flags : ℕ) (fScriptChecks : Bool) (t : Tally)
    (tx : CTransaction) : Except Refusal (Tally × CTxUndo) := do
  let t := { t with nSigOps := t.nSigOps + tx.getLegacySigOpCount }
  require (t.nSigOps ≤ maxBlockSigops) (dos 100 "bad-blk-sigops")
  let t ← tallyInputs par orc env flags fScriptChecks t tx
  let nValueOut ← present tx.getValueOut
  let (view, undo) ← present (t.view.updateCoins tx nHeight)
  pure ({ t with view := view, nValueOut := t.nValueOut + nValueOut }, undo)

def connectTransactions (nHeight : ℤ) (flags : ℕ) (fScriptChecks : Bool) :
    Tally → List CTransaction → Except Refusal (Tally × List CTxUndo)
  | t, [] => .ok (t, [])
  | t, tx :: vtx => do
    let (t, undo) ← connectTransaction par orc env nHeight flags fScriptChecks t tx
    let (t, undos) ← connectTransactions nHeight flags fScriptChecks t vtx
    pure (t, undo :: undos)

end Loop

/-- The blocks of another chain that are exempt from BIP30. -/
def bip30Exempt (pindex : CBlockIndex) : Bool :=
  (pindex.height == 91842 && pindex.getBlockHash ==
      0x00000000000a4d0a398161ffc163c503763b1f4360639393e0e4c8e300e0caec) ||
    (pindex.height == 91880 && pindex.getBlockHash ==
      0x00000000000743f190a18c5577a3c2d2a1f610ae9601ac046a38084ccb7cd721)

/-- No transaction of the block overwrites one that is not spent. -/
def overwritesNothing (view : CCoinsViewCache) (block : CBlock) : Bool :=
  block.vtx.all fun tx =>
    match view.accessCoins tx.getHash with
    | none => true
    | some coins => coins.isPruned

section Connect

variable (par : Params) (orc : Oracles) (env : Env)

def scriptFlags (block : CBlock) (pindex : CBlockIndex) : ℕ :=
  (if nBIP16SwitchTime ≤ pindex.getBlockTime then scriptVerifyP2SH else scriptVerifyNone) |||
    (if 3 ≤ block.nVersion ∧ orc.isSuperMajority pindex.parent? = true then scriptVerifyDersig
      else 0)

/-- `GetBlockValue` at the tip; nothing where the program reads a tip that is not there. -/
def Env.getBlockValue (nHeight : ℤ) : Option CAmount :=
  env.chainActive.tip.map fun tip => Validation.getBlockValue par (env.nMoneySupply tip) nHeight

/-- What the block may create: fees go to the miner, in the stake phase they are destroyed. -/
def nExpectedMint (block : CBlock) (nBlockValue nFees : CAmount) : CAmount :=
  if block.isProofOfWork then nBlockValue + nFees else nBlockValue

/-- The masternode payment as the last output of the coinstake, under `SPORK_17`. -/
def checkRecipients (block : CBlock) (nHeight : ℤ) (nExpectedMint : CAmount) :
    Except Refusal Unit := do
  let properStake := if block.nNonce = 0 then 1 else 0
  let staker ← present block.vtx[properStake]?
  let stakeRecipientSize := staker.vout.length - properStake
  if stakeRecipientSize = 1 then .error .failed
  else do
    let coinstake ← present block.vtx[1]?
    let mnOut ← present coinstake.vout[stakeRecipientSize]?
    let mnExp := env.getMasternodePayment nHeight nExpectedMint 0
    if 100 < mnExp - mnOut.nValue then .error .failed else pure ()

def enforceRecipients (block : CBlock) (nHeight : ℤ) (nExpectedMint : CAmount) :
    Except Refusal Unit :=
  if isSporkActive env.sporks spork17BlockRecipientEnforcement then do
    let p ← returned (activeProtocol env.sporks)
    if blockRecipientEnforcement ≤ p then checkRecipients env block nHeight nExpectedMint
    else pure ()
  else pure ()

def connectBlock (disk : Disk) (block : CBlock) (pindex : CBlockIndex)
    (view : CCoinsViewCache) (fJustCheck : Bool) : Except Refusal Connected := do
  checkBlock par orc env block (!fJustCheck)
  let hashPrevBlock := (pindex.parent?.map CBlockIndex.getBlockHash).getD 0
  require (hashPrevBlock == view.hashBlock) .crashed
  if block.getHash = par.hashGenesisBlock then
    pure ⟨view.setBestBlock pindex.getBlockHash, {}, 0, 0⟩
  else do
    let nHeight : ℤ := pindex.height
    require (!(decide (nHeight ≤ par.nLastPOWBlock) && block.isProofOfStake))
      (dos 100 "PoS-early")
    require (!(decide (par.nLastPOWBlock < nHeight) && block.isProofOfWork))
      (dos 100 "PoW-ended")
    require (bip30Exempt pindex || overwritesNothing view block) (dos 100 "bad-txns-BIP30")
    let fScriptChecks := decide (orc.getTotalBlocksEstimate ≤ nHeight)
    let (t, undos) ← connectTransactions par orc env nHeight (scriptFlags orc block pindex)
      fScriptChecks { view := view } block.vtx
    let nMint : CAmount := t.nValueOut - t.nValueIn
    require disk.writeBlockIndex .failed
    let nBlockValue ← present (env.getBlockValue par nHeight)
    let fValue ← returned
      (isBlockValueValid env block (nExpectedMint block nBlockValue t.nFees) nMint)
    require fValue (dos 100 "bad-cb-amount")
    enforceRecipients env block nHeight (nExpectedMint block nBlockValue t.nFees)
    require t.fScriptsOk (dos 100 "")
    if fJustCheck then pure ⟨t.view, ⟨undos.tail⟩, t.nFees, nMint⟩
    else do
      require (disk.writeUndo && disk.writeTxIndex) .failed
      pure ⟨t.view.setBestBlock pindex.getBlockHash, ⟨undos.tail⟩, t.nFees, nMint⟩

end Connect

/-! What the loop adds up, read off the transactions. -/

def valueOut (tx : CTransaction) : CAmount := (tx.vout.map CTxOut.nValue).sum

def afterTransaction (view : CCoinsViewCache) (nHeight : ℤ) (tx : CTransaction) :
    CCoinsViewCache :=
  ((view.updateCoins tx nHeight).map Prod.fst).getD view

/-- The fee of an ordinary transaction. -/
def transactionFee (view : CCoinsViewCache) (tx : CTransaction) : CAmount :=
  if tx.isCoinBase || tx.isCoinStake then 0 else view.getValueIn tx - valueOut tx

def blockFees (nHeight : ℤ) : CCoinsViewCache → List CTransaction → CAmount
  | _, [] => 0
  | view, tx :: vtx =>
    transactionFee view tx + blockFees nHeight (afterTransaction view nHeight tx) vtx

/-- The outputs of the transactions less their inputs. -/
def blockMint (nHeight : ℤ) : CCoinsViewCache → List CTransaction → CAmount
  | _, [] => 0
  | view, tx :: vtx =>
    valueOut tx - view.getValueIn tx + blockMint nHeight (afterTransaction view nHeight tx) vtx

theorem getValueOut_eq {tx : CTransaction} {nValueOut : CAmount}
    (h : tx.getValueOut = some nValueOut) : nValueOut = valueOut tx := by
  have hsum : ∀ (vout : List CTxOut) (n m : CAmount),
      vout.foldlM (fun nValueOut o =>
        if o.nValue < 0 then none
        else if maxAmount < nValueOut + o.nValue then none
        else some (nValueOut + o.nValue)) n = some m → m = n + (vout.map CTxOut.nValue).sum := by
    intro vout
    induction vout with
    | nil =>
      intro n m h
      simp only [List.foldlM_nil, Option.pure_def, Option.some.injEq] at h
      simp [h]
    | cons o vout ih =>
      intro n m h
      simp only [List.foldlM_cons] at h
      split at h
      · cases h
      · split at h
        · cases h
        · simp only [Option.bind_eq_bind, Option.bind_some] at h
          rw [ih _ _ h, List.map_cons, List.sum_cons, Int.add_assoc]
  have := hsum tx.vout 0 nValueOut h
  rwa [Int.zero_add] at this

section Specs

variable {par : Params} {orc : Oracles} {env : Env}

/-- What the inputs of a transaction add to the sums. -/
theorem tallyInputs_ok {flags : ℕ} {fScriptChecks : Bool} {t t' : Tally} {tx : CTransaction}
    (h : tallyInputs par orc env flags fScriptChecks t tx = .ok t') :
    t'.view = t.view ∧ t'.nFees = t.nFees + transactionFee t.view tx ∧
      t'.nValueIn = t.nValueIn + t.view.getValueIn tx ∧ t'.nValueOut = t.nValueOut := by
  unfold tallyInputs at h
  by_cases hcb : tx.isCoinBase = true
  · rw [if_pos hcb] at h
    cases h
    simp [transactionFee, CCoinsViewCache.getValueIn, hcb]
  · rw [if_neg hcb] at h
    simp only [bind_ok] at h
    obtain ⟨_, -, _, -, nFees, hfees, _, -, h⟩ := h
    cases h
    refine ⟨rfl, ?_, rfl, rfl⟩
    by_cases hcs : tx.isCoinStake = true
    · rw [addFee, if_pos hcs] at hfees
      cases hfees
      simp [transactionFee, hcs]
    · simp only [addFee, if_neg hcs] at hfees
      obtain ⟨nValueOut, hout, hfees⟩ := bind_ok.mp hfees
      cases hfees
      simp [transactionFee, hcb, hcs, getValueOut_eq (present_ok.mp hout)]

theorem connectTransaction_ok {nHeight : ℤ} {flags : ℕ} {fScriptChecks : Bool} {t t' : Tally}
    {tx : CTransaction} {undo : CTxUndo}
    (h : connectTransaction par orc env nHeight flags fScriptChecks t tx = .ok (t', undo)) :
    t.view.updateCoins tx nHeight = some (t'.view, undo) ∧
      t'.nFees = t.nFees + transactionFee t.view tx ∧
      t'.nValueIn = t.nValueIn + t.view.getValueIn tx ∧
      t'.nValueOut = t.nValueOut + valueOut tx := by
  simp only [connectTransaction, bind_ok] at h
  obtain ⟨_, -, t₁, htally, nValueOut, hout, ⟨view, undo'⟩, hupdate, h⟩ := h
  obtain ⟨hview, hfees, hin, hout'⟩ := tallyInputs_ok htally
  cases h
  refine ⟨?_, hfees, hin, ?_⟩
  · rw [present_ok, hview] at hupdate
    exact hupdate
  · rw [getValueOut_eq (present_ok.mp hout), hout']

/-- The sums at the end of the loop. -/
theorem connectTransactions_ok {nHeight : ℤ} {flags : ℕ} {fScriptChecks : Bool}
    {vtx : List CTransaction} {t t' : Tally} {undos : List CTxUndo}
    (h : connectTransactions par orc env nHeight flags fScriptChecks t vtx = .ok (t', undos)) :
    t'.nFees = t.nFees + blockFees nHeight t.view vtx ∧
      t'.nValueOut - t'.nValueIn =
        t.nValueOut - t.nValueIn + blockMint nHeight t.view vtx := by
  induction vtx generalizing t undos with
  | nil =>
    cases h
    simp [blockFees, blockMint]
  | cons tx vtx ih =>
    simp only [connectTransactions, bind_ok] at h
    obtain ⟨⟨t₁, undo⟩, hone, ⟨t₂, undos'⟩, hrest, h⟩ := h
    cases h
    obtain ⟨hupdate, hfees, hin, hout⟩ := connectTransaction_ok hone
    obtain ⟨hfees', hmint'⟩ := ih hrest
    have hview : afterTransaction t.view nHeight tx = t₁.view := by
      simp [afterTransaction, hupdate]
    simp only [blockFees, blockMint, hview]
    constructor
    · rw [hfees', hfees, Int.add_assoc]
    · rw [hmint', hin, hout]
      linarith

end Specs

/-- What an accepted block other than the first one has passed. -/
structure Accepted (par : Params) (orc : Oracles) (env : Env) (block : CBlock)
    (pindex : CBlockIndex) (view : CCoinsViewCache) (fJustCheck : Bool) (c : Connected)
    (t : Tally) (undos : List CTxUndo) : Prop where
  checked : checkBlock par orc env block (!fJustCheck) = .ok ()
  hashPrevBlock : (pindex.parent?.map CBlockIndex.getBlockHash).getD 0 = view.hashBlock
  bip30 : bip30Exempt pindex = true ∨ overwritesNothing view block = true
  connected : connectTransactions par orc env pindex.height (scriptFlags orc block pindex)
    (decide (orc.getTotalBlocksEstimate ≤ (pindex.height : ℤ))) { view := view } block.vtx =
      .ok (t, undos)
  value : ∃ nBlockValue, env.getBlockValue par pindex.height = some nBlockValue ∧
    isBlockValueValid env block (nExpectedMint block nBlockValue t.nFees) c.nMint = some true
  nMint : c.nMint = t.nValueOut - t.nValueIn
  nFees : c.nFees = t.nFees
  blockundo : c.blockundo = ⟨undos.tail⟩
  result : c.view = if fJustCheck then t.view else t.view.setBestBlock pindex.getBlockHash

theorem connectBlock_ok {par : Params} {orc : Oracles} {env : Env} {disk : Disk} {block : CBlock}
    {pindex : CBlockIndex} {view : CCoinsViewCache} {fJustCheck : Bool} {c : Connected}
    (hgenesis : block.getHash ≠ par.hashGenesisBlock)
    (h : connectBlock par orc env disk block pindex view fJustCheck = .ok c) :
    ∃ t undos, Accepted par orc env block pindex view fJustCheck c t undos := by
  simp only [connectBlock, if_neg hgenesis, bind_ok, require_ok, returned_ok, present_ok] at h
  obtain ⟨_, hchecked, _, hprev, _, -, _, -, _, hbip, ⟨t, undos⟩, hconn, _, -, v, hv, b, hb, _,
    rfl, _, -, _, -, h⟩ := h
  have hresult : c = ⟨if fJustCheck then t.view else t.view.setBestBlock pindex.getBlockHash,
      ⟨undos.tail⟩, t.nFees, t.nValueOut - t.nValueIn⟩ := by
    cases fJustCheck with
    | true => exact (Except.ok.inj h).symm
    | false =>
      simp only [Bool.false_eq_true, if_false, bind_ok, require_ok] at h ⊢
      obtain ⟨_, -, h⟩ := h
      exact (Except.ok.inj h).symm
  subst hresult
  exact ⟨t, undos, {
    checked := hchecked
    hashPrevBlock := by simpa using hprev
    bip30 := by simpa using hbip
    connected := hconn
    value := ⟨v, hv, hb⟩
    nMint := rfl
    nFees := rfl
    blockundo := rfl
    result := rfl }⟩

/-! A node on a chain of proof-of-work blocks, whose external functions accept everything. -/

def mainParams : Params where
  hashGenesisBlock := 1000
  nMaxMoneyOut := mainMaxMoneyOut
  nLastPOWBlock := 750
  nMaturity := 20

def plainOracles : Oracles where
  checkProofOfWork _ _ := true
  buildMerkleTree _ := (0, false)
  verifyScript _ _ _ _ := true
  isSuperMajority _ := false
  getTotalBlocksEstimate := 0
  scriptCheckThreads := false

def plainChain : ℕ → CBlockIndex
  | 0 => .root ⟨1000, 1500000000, 0x1e0ffff0, false, false, 0⟩
  | n + 1 => .child (plainChain n)
      ⟨BitVec.ofNat 256 (1001 + n), 1500000000, 0x1e0ffff0, false, false, 0⟩

def plainEnv (tip : CBlockIndex) (sporks : Dict ℤ CSporkMessage) (budgets : FinalizedBudgets) :
    Env where
  sporks := ⟨sporks, 1600000000⟩
  isSynced := true
  isInitialBlockDownload := false
  adjustedTime := 1600000000
  chainActive := CChain.ofTip tip
  mapBlockIndex := Dict.empty.set tip.getBlockHash tip
  nMoneySupply _ := 450000 * coin
  mapLockedInputs := Dict.empty
  mapFinalizedBudgets := budgets
  countEnabled _ := 40
  budgetPaymentCycleBlocks := 43200
  masternodePayeeValid _ _ := some true
  getMasternodePayment _ _ _ := 0

def coinbaseOf (hash : Uint256) (vout : List CTxOut) : CTransaction :=
  ⟨hash, 1, [⟨COutPoint.null, [0x01, 0x29], BitVec.allOnes 32⟩], vout, 0⟩

def spendOf (hash : Uint256) (prevout : COutPoint) (vout : List CTxOut) : CTransaction :=
  ⟨hash, 1, [⟨prevout, [], BitVec.allOnes 32⟩], vout, 0⟩

theorem isCoinBase_spendOf {hash : Uint256} {prevout : COutPoint} {vout : List CTxOut}
    (h : prevout.isNull = false) : (spendOf hash prevout vout).isCoinBase = false := h

theorem isCoinStake_spendOf (hash : Uint256) (prevout : COutPoint) (o : CTxOut) :
    (spendOf hash prevout [o]).isCoinStake = false := rfl

theorem afterTransaction_coinbaseOf (view : CCoinsViewCache) (nHeight : ℤ) (hash : Uint256)
    (vout : List CTxOut) : afterTransaction view nHeight (coinbaseOf hash vout) =
      view.addOutputs (coinbaseOf hash vout) nHeight := rfl

theorem getValueIn_spendOf {view : CCoinsViewCache} {hash : Uint256} {prevout : COutPoint}
    {vout : List CTxOut} (h : prevout.isNull = false) :
    view.getValueIn (spendOf hash prevout vout) =
      ((view.coinsFor prevout.hash).vout.getD prevout.n.toNat CTxOut.null).nValue := by
  rw [CCoinsViewCache.getValueIn, isCoinBase_spendOf h]
  simp [spendOf, CCoinsViewCache.getOutputFor]

def plainBlock (hash prev : Uint256) (vtx : List CTransaction) : CBlock where
  hash := hash
  hashPrevBlock := prev
  nTime := 1500000000
  nBits := 0x1e0ffff0
  vtx := vtx

end Scrypta.Validation
