import Scrypta.Budget
import Scrypta.Kernel
import Scrypta.Toolkit.Outcome

/-! What a block may create and whom it has to pay: the subsidy schedule, the limit on the coins
that a block mints, and the check of its masternode or budget payment. -/

namespace Scrypta.Validation

open Spork Budget Kernel

/-- The values of `Params()` that the checks of a block read. -/
structure Params where
  hashGenesisBlock : Uint256
  nMaxMoneyOut : CAmount
  nLastPOWBlock : ℤ
  nMaturity : ℤ

def mainMaxMoneyOut : CAmount := 50000000 * coin

/-- What the checks of a block read of the rest of the node. `budgetPaymentCycleBlocks` is
43200 on the main network and 144 elsewhere; `masternodePayeeValid` is
`CMasternodePayments::IsTransactionValid`, with `none` when it does not return. -/
structure Env where
  sporks : Sporks
  isSynced : Bool
  isInitialBlockDownload : Bool
  adjustedTime : ℤ
  chainActive : CChain
  mapBlockIndex : BlockMap
  nMoneySupply : CBlockIndex → CAmount
  mapLockedInputs : Dict COutPoint Uint256
  mapFinalizedBudgets : FinalizedBudgets
  countEnabled : ℤ → ℤ
  budgetPaymentCycleBlocks : ℤ
  masternodePayeeValid : CTransaction → ℤ → Option Bool
  getMasternodePayment : ℤ → CAmount → ℤ → CAmount

def Env.budget (env : Env) : Budget.Manager :=
  ⟨env.mapFinalizedBudgets, env.sporks, env.countEnabled⟩

/-- How a check ends that does not accept. Only `dos` marks the block invalid; `failed` is a
`false` without a word on the block, `noReturn` a call that does not come back, `crashed` a read
outside of a vector or an assertion that fails. -/
inductive Refusal
  | dos (nDoS : ℕ) (strRejectReason : String) (corruptionIn : Bool)
  | failed
  | noReturn
  | crashed
  deriving DecidableEq, Repr

/-- `state.DoS` without possible corruption. -/
def dos (nDoS : ℕ) (strRejectReason : String) : Refusal := .dos nDoS strRejectReason false

/-- `state.Invalid` -/
def invalid (strRejectReason : String) : Refusal := .dos 0 strRejectReason false

def require (c : Bool) (r : Refusal) : Except Refusal Unit := if c then .ok () else .error r

/-- A check that is made under a condition. -/
def whenever (c : Bool) (check : Except Refusal Unit) : Except Refusal Unit :=
  if c then check else .ok ()

def returned {α : Type*} : Option α → Except Refusal α
  | some a => .ok a
  | none => .error .noReturn

def present {α : Type*} : Option α → Except Refusal α
  | some a => .ok a
  | none => .error .crashed

/-- The schedule by the height of the previous block. No subsidy is scheduled between 5364307
and 5365306. -/
def nSubsidy (nHeight : ℤ) : CAmount :=
  if nHeight ≤ 10 then 0 * coin
  else if 10 < nHeight ∧ nHeight ≤ 30 then 450000 * coin
  else if 30 < nHeight ∧ nHeight ≤ 499 then 0 * coin
  else if 499 < nHeight ∧ nHeight ≤ 750 then 2 * coin
  else if 750 < nHeight ∧ nHeight ≤ 180301 then 10 * coin
  else if 180301 < nHeight ∧ nHeight ≤ 698702 then 9 * coin
  else if 698702 < nHeight ∧ nHeight ≤ 1217103 then 810000000
  else if 1217103 < nHeight ∧ nHeight ≤ 2253904 then 650000000
  else if 2253904 < nHeight ∧ nHeight ≤ 3290705 then 520000000
  else if 3290705 < nHeight ∧ nHeight ≤ 5364306 then 310000000
  else if 5365306 < nHeight ∧ nHeight ≤ 7437907 then 190000000
  else if 7437907 < nHeight then 110000000
  else 0

/-- `GetBlockValue` under the money supply at the tip. -/
def getBlockValue (par : Params) (nMoneySupply : CAmount) (nHeight : ℤ) : CAmount :=
  let subsidy := nSubsidy (nHeight - 1)
  let subsidy := if par.nMaxMoneyOut ≤ nMoneySupply + subsidy then
    par.nMaxMoneyOut - nMoneySupply else subsidy
  if par.nMaxMoneyOut ≤ nMoneySupply then 0 else subsidy

section Checks

variable (par : Params) (env : Env)

/-- The height of the block by its parent in the index; 0 when the parent is not there. -/
def nHeightFor (block : CBlock) : ℤ :=
  match env.chainActive.tip with
  | none => 0
  | some pindexPrev =>
    if pindexPrev.getBlockHash = block.hashPrevBlock then pindexPrev.height + 1
    else
      match env.mapBlockIndex.find block.hashPrevBlock with
      | some pindex => pindex.height + 1
      | none => 0

/-- `none` when `ActiveProtocol` does not return. -/
def isBlockValueValid (block : CBlock) (nExpectedValue nMinted : CAmount) : Option Bool :=
  if env.chainActive.tip.isNone then some true
  else
    let nHeight := nHeightFor env block
    if !env.isSynced then
      some (decide (nHeight.tmod env.budgetPaymentCycleBlocks < 100) ||
        decide (nMinted ≤ nExpectedValue))
    else if !isSporkActive env.sporks spork13EnableSuperblocks then
      some (decide (nMinted ≤ nExpectedValue))
    else
      -- for a budget block "the value of the block is evaluated in CheckBlock"
      (isBudgetPaymentBlock env.budget nHeight).map fun fBudget =>
        fBudget || decide (nMinted ≤ nExpectedValue)

/-- Superblocks are enabled and this is one. -/
def isSuperblock (nBlockHeight : ℤ) : Option Bool :=
  if isSporkActive env.sporks spork13EnableSuperblocks then
    isBudgetPaymentBlock env.budget nBlockHeight
  else some false

/-- The transaction that has to hold the payment. -/
def payingTransaction (block : CBlock) (nBlockHeight : ℤ) : Option CTransaction :=
  block.vtx[if par.nLastPOWBlock < nBlockHeight then 1 else 0]?

def isBlockPayeeValid (block : CBlock) (nBlockHeight : ℤ) : Except Refusal Bool :=
  if !env.isSynced then .ok true
  else do
    let txNew ← present (payingTransaction par block nBlockHeight)
    let fBudget ← returned (isSuperblock env nBlockHeight)
    if fBudget then do
      let fValid ← returned (Budget.isTransactionValid env.budget txNew nBlockHeight)
      pure (fValid || !isSporkActive env.sporks spork9MasternodeBudgetEnforcement)
    else do
      let fValid ← returned (env.masternodePayeeValid txNew nBlockHeight)
      pure (fValid || !isSporkActive env.sporks spork8MasternodePaymentEnforcement)

end Checks

section Steps

variable {α β : Type}

theorem bind_ok {x : Except Refusal α} {f : α → Except Refusal β} {b : β} :
    (x >>= f) = .ok b ↔ ∃ a, x = .ok a ∧ f a = .ok b := Outcome.bind_eq_ok

theorem require_ok {c : Bool} {r : Refusal} {u : Unit} : require c r = .ok u ↔ c = true := by
  unfold require
  split
  · next h => simp [h]
  · next h => simp [h]

theorem whenever_ok {c : Bool} {check : Except Refusal Unit} {u : Unit} :
    whenever c check = .ok u ↔ (c = true → check = .ok ()) := by
  unfold whenever
  split
  · next h => simp [h]
  · next h => simp [h]

theorem returned_ok {x : Option α} {a : α} : returned x = .ok a ↔ x = some a := by
  cases x <;> simp [returned]

theorem present_ok {x : Option α} {a : α} : present x = .ok a ↔ x = some a := by
  cases x <;> simp [present]

end Steps

end Scrypta.Validation
