import Scrypta.ConnectBlock

/-! How many coins a block can create. Outside of superblocks the limit of a proof-of-work block
counts the fees although the coins are already counted net of them; in a superblock nothing
compares the coins with the budget. -/

namespace Scrypta.Validation

open Spork Budget

/-- The block is connected on top of the tip. -/
structure OnTip (env : Env) (block : CBlock) (pindex : CBlockIndex) : Prop where
  tip : env.chainActive.tip = pindex.parent?
  prev : ∀ p : CBlockIndex, pindex.parent? = some p → p.getBlockHash = block.hashPrevBlock

/-- `GetBlockValue` for the block after the tip. -/
def nextBlockValue (par : Params) (env : Env) (tip : CBlockIndex) : CAmount :=
  getBlockValue par (env.nMoneySupply tip) (tip.height + 1)

section Limits

variable {par : Params} {orc : Oracles} {env : Env} {disk : Disk} {block : CBlock}
  {pindex : CBlockIndex} {view : CCoinsViewCache} {fJustCheck : Bool} {c : Connected}

theorem nSubsidy_nonneg (nHeight : ℤ) : 0 ≤ nSubsidy nHeight := by
  have hstep {p : Prop} [Decidable p] {a b : CAmount} (ha : 0 ≤ a) (hb : 0 ≤ b) :
      0 ≤ if p then a else b := by
    split
    · exact ha
    · exact hb
  unfold nSubsidy
  iterate 12 refine hstep (by decide) ?_
  exact Int.le_refl 0

theorem getBlockValue_nonneg {nMoneySupply : CAmount} {nHeight : ℤ} :
    0 ≤ getBlockValue par nMoneySupply nHeight := by
  simp only [getBlockValue]
  split
  · exact Int.le_refl 0
  · next hmax =>
    rw [not_le] at hmax
    split
    · exact Int.sub_nonneg_of_le hmax.le
    · exact nSubsidy_nonneg _

theorem nHeightFor_of_tip {tip : CBlockIndex} (htip : env.chainActive.tip = some tip)
    (hprev : block.hashPrevBlock = tip.getBlockHash) :
    nHeightFor env block = tip.height + 1 := by
  simp only [nHeightFor, htip, hprev, if_true]

/-- An accepted block has a parent, the tip. -/
theorem OnTip.exists_parent (htip : OnTip env block pindex) {v : CAmount}
    (hv : env.getBlockValue par pindex.height = some v) :
    ∃ tip, env.chainActive.tip = some tip ∧ block.hashPrevBlock = tip.getBlockHash ∧
      (pindex.height : ℤ) = tip.height + 1 := by
  obtain ⟨tip, htip', -⟩ := Option.map_eq_some_iff.mp hv
  have hparent := htip.tip.symm.trans htip'
  refine ⟨tip, htip', (htip.prev tip hparent).symm, ?_⟩
  cases pindex with
  | root a => cases hparent
  | child p a =>
    obtain rfl := Option.some.inj hparent
    rw [Lineage.height]
    push_cast
    rfl

/-- The sums and the value check of an accepted block. -/
theorem connectBlock_value (hgenesis : block.getHash ≠ par.hashGenesisBlock)
    (h : connectBlock par orc env disk block pindex view fJustCheck = .ok c) :
    c.nFees = blockFees pindex.height view block.vtx ∧
      c.nMint = blockMint pindex.height view block.vtx ∧
      ∃ v, env.getBlockValue par pindex.height = some v ∧
        isBlockValueValid env block (nExpectedMint block v c.nFees) c.nMint = some true := by
  obtain ⟨t, undos, hacc⟩ := connectBlock_ok hgenesis h
  obtain ⟨hfees, hmint⟩ := connectTransactions_ok hacc.connected
  rw [hacc.nFees, hacc.nMint]
  refine ⟨?_, ?_, ?_⟩
  · rw [hfees, zero_add]
  · rw [hmint]
    simp
  · rw [← hacc.nMint]
    exact hacc.value

/-- Outside of superblocks a synced node compares the two amounts. -/
theorem isBlockValueValid_ordinary {tip : CBlockIndex} {nExpected nMint : CAmount}
    (htip : env.chainActive.tip = some tip) (hsynced : env.isSynced = true)
    (hordinary : isSuperblock env (nHeightFor env block) = some false) :
    isBlockValueValid env block nExpected nMint = some (decide (nMint ≤ nExpected)) := by
  simp only [isSuperblock] at hordinary
  split at hordinary
  · next h13 => simp [isBlockValueValid, htip, hsynced, h13, hordinary]
  · next h13 => simp [isBlockValueValid, htip, hsynced, h13]

/-- In a superblock it does not. -/
theorem isBlockValueValid_superblock {nExpected nMint : CAmount}
    (hsynced : env.isSynced = true)
    (hsuper : isSuperblock env (nHeightFor env block) = some true) :
    isBlockValueValid env block nExpected nMint = some true := by
  simp only [isSuperblock] at hsuper
  split at hsuper
  · next h13 => simp [isBlockValueValid, hsynced, h13, hsuper]
  · cases hsuper

end Limits

/-! Ordinary blocks. -/

section Subsidy

variable {par : Params} {env : Env}

/-- A block whose only ordinary transaction pays all of its input as a fee, which the coinbase
collects twice. -/
def doubleFeeBlock (prev : Uint256) (v nFees : CAmount) : CBlock :=
  plainBlock 9 prev [coinbaseOf 500 [⟨v + 2 * nFees, [0x51], -10⟩],
    spendOf 501 ⟨77, 0⟩ [⟨0, [0x51], -10⟩]]

def doubleFeeView (nFees : CAmount) : CCoinsViewCache where
  hashBlock := 0
  cacheCoins := Dict.empty.set 77 ⟨false, false, [⟨nFees, [0x51], -10⟩], 1, 1⟩

theorem doubleFee_sums (nHeight : ℤ) (prev : Uint256) (v nFees : CAmount) :
    blockFees nHeight (doubleFeeView nFees) (doubleFeeBlock prev v nFees).vtx = nFees ∧
      blockMint nHeight (doubleFeeView nFees) (doubleFeeBlock prev v nFees).vtx = v + nFees := by
  have hnull : (⟨77, 0⟩ : COutPoint).isNull = false := rfl
  have hcb : (coinbaseOf 500 [⟨v + 2 * nFees, [0x51], -10⟩]).isCoinBase = true := rfl
  have hcbin : (doubleFeeView nFees).getValueIn
      (coinbaseOf 500 [⟨v + 2 * nFees, [0x51], -10⟩]) = 0 := rfl
  have hcbout : valueOut (coinbaseOf 500 [⟨v + 2 * nFees, [0x51], -10⟩]) = v + 2 * nFees :=
    add_zero _
  have hin : ((doubleFeeView nFees).addOutputs (coinbaseOf 500 [⟨v + 2 * nFees, [0x51], -10⟩])
      nHeight).getValueIn (spendOf 501 ⟨77, 0⟩ [⟨0, [0x51], -10⟩]) = nFees := by
    have hne : ¬(77 : Uint256) = 500 := by decide
    rw [getValueIn_spendOf hnull, CCoinsViewCache.addOutputs, CCoinsViewCache.coinsFor_putCoins]
    exact congrArg (fun coins : CCoins => (coins.vout.getD 0 CTxOut.null).nValue) (if_neg hne)
  have hout : valueOut (spendOf 501 ⟨77, 0⟩ [⟨0, [0x51], -10⟩]) = 0 := rfl
  simp only [doubleFeeBlock, plainBlock, blockFees, blockMint, transactionFee, hcb,
    isCoinBase_spendOf hnull, isCoinStake_spendOf, afterTransaction_coinbaseOf, hcbin, hcbout,
    hin, hout]
  constructor
  · simp
  · linarith

def feeEnv : Env := plainEnv (plainChain 40) .empty .empty

def premineView : CCoinsViewCache where
  hashBlock := 1040
  cacheCoins := Dict.empty.set 77 ⟨true, false, [⟨450000 * coin, [0x51], -10⟩], 12, 1⟩

def feeBlock : CBlock :=
  plainBlock 1041 1040 [coinbaseOf 500 [⟨2 * coin, [0x51], -10⟩],
    spendOf 501 ⟨77, 0⟩ [⟨449999 * coin, [0x51], -10⟩]]

end Subsidy

/-! Superblocks. -/

section Superblock

variable {par : Params} {env : Env}

/-- The coins are covered by the subsidy and the payment of some finalized budget. -/
def WithinBudget (env : Env) (nHeight : ℤ) (v nMint : CAmount) : Prop :=
  ∃ b ∈ env.mapFinalizedBudgets.all, ∃ payment,
    b.getBudgetPaymentByBlock nHeight = some payment ∧ nMint ≤ v + payment.nAmount

/-- Fewer enabled masternodes make the margin of the votes vanish. -/
def FewMasternodes (env : Env) : Prop :=
  ∀ p, activeProtocol env.sporks = some p → env.countEnabled p < 10

/-- With few masternodes no budget is above the margin, and no transaction pays a budget. -/
theorem isTransactionValid_of_few {tx : CTransaction} {nHeight : ℤ} {fValid : Bool}
    (hfew : FewMasternodes env)
    (h : Budget.isTransactionValid env.budget tx nHeight = some fValid) : fValid = false := by
  obtain ⟨p, hp, hvalid⟩ := Option.map_eq_some_iff.mp h
  have hcount : env.budget.countEnabled p < 10 := hfew p hp
  have hmargin : (env.budget.countEnabled p).tdiv 10 ≤ (9 : ℤ).tdiv 10 :=
    Int.tdiv_le_tdiv (by norm_num) (by omega)
  rw [← hvalid]
  simp only
  split
  · rfl
  · apply List.any_eq_false.mpr
    intro b hb
    simp only [Bool.and_eq_true, decide_eq_true_eq, not_and, and_imp]
    intro habove hcov
    have hle : b.getVoteCount ≤ highestCount nHeight env.budget.mapFinalizedBudgets.all 0 :=
      getVoteCount_le_highestCount hb hcov
    have hzero : (9 : ℤ).tdiv 10 = 0 := rfl
    omega

/-- With more of them, a payment of a budget with the most votes passes, whatever else the
transaction does. -/
theorem isTransactionValid_of_highest {man : Manager} {nHeight p : ℤ} {b : CFinalizedBudget}
    {payment : CTxBudgetPayment} {tx : CTransaction} (hp : activeProtocol man.sporks = some p)
    (hmany : 10 ≤ man.countEnabled p) (hb : b ∈ man.mapFinalizedBudgets.all)
    (hcov : b.covers nHeight = true)
    (hvotes : b.getVoteCount = highestCount nHeight man.mapFinalizedBudgets.all 0)
    (habove : (man.countEnabled p).tdiv 20 ≤ b.getVoteCount)
    (hpayment : b.getBudgetPaymentByBlock nHeight = some payment) {out : CTxOut}
    (hout : out ∈ tx.vout) (hscript : out.scriptPubKey = payment.payee)
    (hvalue : out.nValue = payment.nAmount) :
    Budget.isTransactionValid man tx nHeight = some true := by
  have hpays : b.isTransactionValid tx nHeight = true := by
    simp only [CFinalizedBudget.isTransactionValid, hpayment]
    exact List.any_eq_true.mpr ⟨out, hout, by simp [hscript, hvalue]⟩
  have h10 : (10 : ℤ).tdiv 10 ≤ (man.countEnabled p).tdiv 10 :=
    Int.tdiv_le_tdiv (by norm_num) hmany
  have hone : (10 : ℤ).tdiv 10 = 1 := rfl
  refine Option.map_eq_some_iff.mpr ⟨p, hp, ?_⟩
  simp only
  rw [if_neg (by omega)]
  refine List.any_eq_true.mpr ⟨b, hb, ?_⟩
  simp only [hcov, hpays, Bool.and_true, decide_eq_true_eq]
  omega

theorem exists_payable {nHeight : ℤ} (hmany : ¬ FewMasternodes env)
    (hsuper : isSuperblock env nHeight = some true) :
    ∃ payment : CTxBudgetPayment, ∀ tx : CTransaction,
      ⟨payment.nAmount, payment.payee, -10⟩ ∈ tx.vout →
      Budget.isTransactionValid env.budget tx nHeight = some true := by
  simp only [FewMasternodes, not_forall] at hmany
  obtain ⟨p, hp, hfew⟩ := hmany
  have hcount : ¬ env.budget.countEnabled p < 10 := hfew
  have hbudget : isBudgetPaymentBlock env.budget nHeight = some true := by
    simp only [isSuperblock] at hsuper
    split at hsuper
    · exact hsuper
    · cases hsuper
  obtain ⟨p', hp', habove⟩ := Option.map_eq_some_iff.mp hbudget
  obtain rfl : p = p' := Option.some.inj (hp.symm.trans hp')
  have habove := of_decide_eq_true habove
  have h20 : (10 : ℤ).tdiv 20 ≤ (env.budget.countEnabled p).tdiv 20 :=
    Int.tdiv_le_tdiv (by norm_num) (by omega)
  have hzero : (10 : ℤ).tdiv 20 = 0 := rfl
  have hstart : highestCount nHeight env.budget.mapFinalizedBudgets.all 0 =
      highestCount nHeight env.budget.mapFinalizedBudgets.all (-1) :=
    highestCount_start (by norm_num) (by omega)
  rcases highestCount_attained nHeight env.budget.mapFinalizedBudgets.all (-1) with
    heq | ⟨b, hb, hcov, hvotes⟩
  · omega
  · obtain ⟨payment, hpayment⟩ := exists_payment hcov
    refine ⟨payment, fun tx htx => ?_⟩
    exact isTransactionValid_of_highest hp (by omega) hb hcov (by omega) (by omega) hpayment htx
      rfl rfl

theorem exists_largest_payment (env : Env) (nHeight : ℤ) :
    ∃ M : CAmount, ∀ b ∈ env.mapFinalizedBudgets.all, ∀ payment,
      b.getBudgetPaymentByBlock nHeight = some payment → payment.nAmount ≤ M := by
  induction env.mapFinalizedBudgets.all with
  | nil => exact ⟨0, fun b hb => nomatch hb⟩
  | cons b rest ih =>
    obtain ⟨M, hM⟩ := ih
    refine ⟨max M ((b.getBudgetPaymentByBlock nHeight).elim 0 CTxBudgetPayment.nAmount), ?_⟩
    intro b' hb' payment hpayment
    rcases List.mem_cons.mp hb' with rfl | hrest
    · rw [hpayment]
      exact le_max_right _ _
    · exact (hM b' hrest payment hpayment).trans (le_max_left _ _)

/-- A block of two transactions that pay the budget and some amount besides. -/
def generousBlock (prev : Uint256) (nAmount : CAmount) (payment : CTxBudgetPayment) : CBlock :=
  plainBlock 9 prev [coinbaseOf 500 [⟨nAmount, [0x51], -10⟩, ⟨payment.nAmount, payment.payee, -10⟩],
    coinbaseOf 501 [⟨nAmount, [0x51], -10⟩, ⟨payment.nAmount, payment.payee, -10⟩]]

theorem generousBlock_mint (nHeight : ℤ) (view : CCoinsViewCache) (prev : Uint256)
    (nAmount : CAmount) (payment : CTxBudgetPayment) :
    blockMint nHeight view (generousBlock prev nAmount payment).vtx =
      2 * (nAmount + payment.nAmount) := by
  have hout (hash : Uint256) : valueOut (coinbaseOf hash
      [⟨nAmount, [0x51], -10⟩, ⟨payment.nAmount, payment.payee, -10⟩]) =
      nAmount + payment.nAmount := by
    simp [valueOut, coinbaseOf]
  have hin (view : CCoinsViewCache) (hash : Uint256) (vout : List CTxOut) :
      view.getValueIn (coinbaseOf hash vout) = 0 := rfl
  simp only [generousBlock, plainBlock, blockMint, hout, hin]
  linarith

/-- In a superblock a synced node wants the payment of a budget, and nothing else. -/
theorem isBlockPayeeValid_superblock {block : CBlock} {nHeight : ℤ}
    (hsynced : env.isSynced = true)
    (h9 : isSporkActive env.sporks spork9MasternodeBudgetEnforcement = true)
    (hsuper : isSuperblock env nHeight = some true) :
    isBlockPayeeValid par env block nHeight = .ok true ↔
      ∃ tx, payingTransaction par block nHeight = some tx ∧
        Budget.isTransactionValid env.budget tx nHeight = some true := by
  have hpure (fValid b : Bool) :
      (pure (fValid || !true) : Except Refusal Bool) = .ok b ↔ fValid = b := by
    simp [Pure.pure, Except.pure]
  simp only [isBlockPayeeValid, hsynced, Bool.not_true, Bool.false_eq_true, if_false, bind_ok,
    present_ok, hsuper, h9, returned_ok]
  constructor
  · rintro ⟨tx, htx, b, hb, h⟩
    obtain rfl := Option.some.inj hb
    obtain ⟨fValid, hvalid, h⟩ := bind_ok.mp h
    obtain rfl := (hpure _ _).mp h
    exact ⟨tx, htx, returned_ok.mp hvalid⟩
  · rintro ⟨tx, htx, hvalid⟩
    exact ⟨tx, htx, true, rfl, bind_ok.mpr ⟨true, returned_ok.mpr hvalid, (hpure _ _).mpr rfl⟩⟩

def testParams : Params := { mainParams with nLastPOWBlock := 100, nMaturity := 10 }

def budgetVote (hash : Uint256) : CFinalizedBudgetVote :=
  ⟨⟨⟨hash, 0⟩, [], 0⟩, 7, 1500000000, [], true⟩

def superBudget : CFinalizedBudget where
  nBlockStart := 144
  vecBudgetPayments := [⟨1, [0x52], 100 * coin⟩]
  mapVotes := ((Dict.empty.set 1 (budgetVote 1)).set 2 (budgetVote 2)).set 3 (budgetVote 3)

def superEnv : Env :=
  plainEnv (plainChain 143)
    ((Dict.empty.set spork13EnableSuperblocks ⟨[], spork13EnableSuperblocks, 1500000000, 0⟩).set
      spork9MasternodeBudgetEnforcement ⟨[], spork9MasternodeBudgetEnforcement, 1500000000, 0⟩)
    (Dict.empty.set 7 superBudget)

def stakerView : CCoinsViewCache where
  hashBlock := 1143
  cacheCoins := Dict.empty.set 77 ⟨false, false, [⟨10000 * coin, [0x51], -10⟩], 12, 1⟩

def superBlock : CBlock :=
  plainBlock 1144 1143 [coinbaseOf 500 [⟨0, [], -10⟩],
    spendOf 501 ⟨77, 0⟩ [⟨0, [], -10⟩, ⟨11000 * coin, [0x51], -10⟩, ⟨100 * coin, [0x52], -10⟩]]

end Superblock

end Scrypta.Validation
