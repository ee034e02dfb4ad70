import Mathlib.Algebra.Order.BigOperators.Group.List
import Mathlib.Algebra.Order.Group.Int
import Mathlib.Tactic.SplitIfs
import Scrypta.BudgetVotes
import Scrypta.Kernel
import Scrypta.Script
import Scrypta.Toolkit.LittleEndian

/-! When a proposal or a finalized budget is valid: its fee transaction, its schedule, and the
amounts it pays. Amounts are signed 64-bit numbers that are read from the wire as they are. -/

namespace Scrypta.Budget

open Spork Kernel

inductive NetworkID
  | main | testnet | regtest | unittest
  deriving DecidableEq, Repr

def proposalFeeTx : CAmount := 50 * coin
def budgetFeeConfirmations : ℤ := 6

/-- What the budget reads of the rest of the node while one message is handled. `find` gives the
key of a masternode by its outpoint, `countEnabled` the enabled masternodes from a protocol
version on. -/
structure Env where
  fLiteMode : Bool
  isBlockchainSynced : Bool
  isSynced : Bool
  now : ℤ
  networkID : NetworkID
  nLastPOWBlock : ℤ
  chainActive : CChain
  mapBlockIndex : BlockMap
  getTransaction : Uint256 → Option (CTransaction × Uint256)
  getIXConfirmations : Uint256 → ℤ
  sporks : Sporks
  countEnabled : ℤ → ℤ
  find : COutPoint → Option Bytes

section Rules

variable (orc : Oracles) (env : Env)

def getBudgetPaymentCycleBlocks : ℤ := if env.networkID = .main then 43200 else 144

/-- `OP_RETURN` and the hash. -/
def findScript (nExpectedHash : Uint256) : CScript :=
  Script.opReturn :: 32 :: LittleEndian.encode 32 nExpectedHash.toNat

/-- The block of the active chain that holds the transaction. -/
def confirmingBlock (nBlockHash : Uint256) : Option CBlockIndex :=
  if nBlockHash = 0 then none
  else (env.mapBlockIndex.find nBlockHash).filter env.chainActive.contains

/-- What `IsBudgetCollateralValid` finds: its answer, the time of the block where it sets one,
and the confirmations. -/
structure Collateral where
  fValid : Bool
  nTime : Option ℤ := none
  nConf : ℤ := 0
  deriving DecidableEq, Repr

def isBudgetCollateralValid (nTxCollateralHash nExpectedHash : Uint256) : Collateral :=
  match env.getTransaction nTxCollateralHash with
  | none => ⟨false, none, 0⟩
  | some (txCollateral, nBlockHash) =>
    if txCollateral.vout.length < 1 ∨ txCollateral.nLockTime ≠ 0 then ⟨false, none, 0⟩
    else if !txCollateral.vout.all fun o =>
        Script.isNormalPaymentScript o.scriptPubKey || Script.isUnspendable o.scriptPubKey then
      ⟨false, none, 0⟩
    else if !txCollateral.vout.any fun o =>
        o.scriptPubKey == findScript nExpectedHash && decide (proposalFeeTx ≤ o.nValue) then
      ⟨false, none, 0⟩
    else
      let conf := env.getIXConfirmations nTxCollateralHash
      match confirmingBlock env nBlockHash with
      | none => ⟨decide (budgetFeeConfirmations ≤ conf), none, conf⟩
      | some pindex =>
        let conf := conf + (env.chainActive.height - pindex.height + 1)
        ⟨decide (budgetFeeConfirmations ≤ conf), some pindex.getBlockTime, conf⟩

/-- The schedule of `GetTotalBudget` by height. -/
def totalBudgetSubsidy (nHeight : ℤ) : CAmount :=
  if nHeight ≤ env.nLastPOWBlock ∧ 151200 ≤ nHeight then 50 * coin
  else if nHeight ≤ 302399 ∧ env.nLastPOWBlock < nHeight then 50 * coin
  else if nHeight ≤ 345599 ∧ 302400 ≤ nHeight then 45 * coin
  else if nHeight ≤ 388799 ∧ 345600 ≤ nHeight then 40 * coin
  else if nHeight ≤ 431999 ∧ 388800 ≤ nHeight then 35 * coin
  else if nHeight ≤ 475199 ∧ 432000 ≤ nHeight then 30 * coin
  else if nHeight ≤ 518399 ∧ 475200 ≤ nHeight then 25 * coin
  else if nHeight ≤ 561599 ∧ 518400 ≤ nHeight then 20 * coin
  else if nHeight ≤ 604799 ∧ 561600 ≤ nHeight then 15 * coin
  else if nHeight ≤ 647999 ∧ 604800 ≤ nHeight then 10 * coin
  else if 648000 ≤ nHeight then 5 * coin
  else 0 * coin

def getTotalBudget (nHeight : ℤ) : CAmount :=
  if env.chainActive.tip.isNone then 0
  else if env.networkID = .testnet then (500 * coin).tdiv 100 * 10 * 146
  else if nHeight ≤ 172800 then 648000 * coin
  else (totalBudgetSubsidy env nHeight).tdiv 100 * 10 * 1440 * 30

/-- The sum of the payments as the machine forms it. -/
def CFinalizedBudget.getTotalPayout (b : CFinalizedBudget) : CAmount :=
  b.vecBudgetPayments.foldl (fun ret payment => toInt64 (ret + payment.nAmount)) 0

/-- What `IsValid` looks up about the fee transaction, where it does. -/
def checkedCollateral (fCheckCollateral : Bool) (nFeeTXHash hash : Uint256) : Collateral :=
  if fCheckCollateral then isBudgetCollateralValid env nFeeTXHash hash else ⟨true, none, 0⟩

/-- The first check of `IsValid` that fails. The text about the collateral itself is left out. -/
def CFinalizedBudget.validError (b : CFinalizedBudget) (fCheckCollateral : Bool) :
    Option String :=
  if b.nBlockStart.tmod (getBudgetPaymentCycleBlocks env) ≠ 0 then some "Invalid BlockStart"
  else if 100 < b.getBlockEnd - b.nBlockStart then some "Invalid BlockEnd"
  else if 100 < b.vecBudgetPayments.length then
    some "Invalid budget payments count (too many)"
  else if b.strBudgetName = "" then some "Invalid Budget Name"
  else if b.nBlockStart = 0 then some "Invalid BlockStart == 0"
  else if b.nFeeTXHash = 0 then some "Invalid FeeTx == 0"
  else if getTotalBudget env b.nBlockStart < b.getTotalPayout then
    some "Invalid Payout (more than max)"
  else if !(checkedCollateral env fCheckCollateral b.nFeeTXHash (b.getHash orc)).fValid then
    some "Invalid Collateral : "
  else
    match env.chainActive.tip with
    | none => none
    | some pindexPrev =>
      if b.nBlockStart < pindexPrev.height - 100 then some "Older than current blockHeight"
      else none

/-- `IsValid`, with the time of the budget that the check of the collateral sets. -/
def CFinalizedBudget.isValid (b : CFinalizedBudget) (fCheckCollateral : Bool) :
    Except String CFinalizedBudget :=
  match b.validError orc env fCheckCollateral with
  | some strError => .error strError
  | none => .ok { b with nTime :=
      (checkedCollateral env fCheckCollateral b.nFeeTXHash (b.getHash orc)).nTime.getD b.nTime }

def CBudgetProposal.validError (p : CBudgetProposal) (proto : ℤ) (fCheckCollateral : Bool) :
    Option String :=
  if (env.countEnabled proto).tdiv 10 < p.getNays - p.getYeas then some "Active removal"
  else if p.nBlockStart < 0 then some "Invalid Proposal"
  else if p.nBlockEnd < p.nBlockStart then some "Invalid nBlockEnd (end before start)"
  else if p.nAmount < 10 * coin then some "Invalid nAmount"
  else if p.address = [] then some "Invalid Payment Address"
  else if !(checkedCollateral env fCheckCollateral p.nFeeTXHash (p.getHash orc)).fValid then
    some "Invalid collateral"
  else if Script.isPayToScriptHash p.address then
    some "Multisig is not currently supported."
  else if getTotalBudget env p.nBlockStart < p.nAmount then some "Payment more than max"
  else
    match env.chainActive.tip with
    | none => none
    | some pindexPrev =>
      if p.nBlockEnd < pindexPrev.height - (getBudgetPaymentCycleBlocks env).tdiv 2 then
        some "Invalid nBlockEnd (end too early)"
      else none

/-- `IsValid`; `none` when `ActiveProtocol` does not return. -/
def CBudgetProposal.isValid (p : CBudgetProposal) (fCheckCollateral : Bool) :
    Option (Except String CBudgetProposal) :=
  (activeProtocol env.sporks).map fun proto =>
    match p.validError orc env proto fCheckCollateral with
    | some strError => .error strError
    | none => .ok { p with nTime :=
        (checkedCollateral env fCheckCollateral p.nFeeTXHash (p.getHash orc)).nTime.getD p.nTime }

end Rules

/-! What a valid finalized budget pays. -/

/-- Each payment and the exact sum of the payments stay inside the budget of the cycle. -/
structure CFinalizedBudget.InBudget (env : Env) (b : CFinalizedBudget) : Prop where
  each : ∀ payment ∈ b.vecBudgetPayments,
    0 ≤ payment.nAmount ∧ payment.nAmount ≤ getTotalBudget env b.nBlockStart
  total : (b.vecBudgetPayments.map CTxBudgetPayment.nAmount).sum ≤
    getTotalBudget env b.nBlockStart

variable {orc : Oracles} {env : Env}

theorem toInt64_add (x y : ℤ) : toInt64 (toInt64 x + y) = toInt64 (x + y) :=
  Int.bmod_add_bmod

theorem toInt64_of_lt {x : ℤ} (hlo : 0 ≤ x) (hhi : x < 2 ^ 63) : toInt64 x = x := by
  unfold toInt64
  exact Int.bmod_eq_of_le (by omega) (by omega)

theorem foldl_toInt64 (payments : List CTxBudgetPayment) (ret : CAmount) :
    payments.foldl (fun ret payment => toInt64 (ret + payment.nAmount)) (toInt64 ret) =
      toInt64 (ret + (payments.map CTxBudgetPayment.nAmount).sum) := by
  induction payments generalizing ret with
  | nil => simp
  | cons payment payments ih =>
    rw [List.foldl_cons, toInt64_add, ih, List.map_cons, List.sum_cons, add_assoc]

/-- The machine sum is the exact sum up to a multiple of `2 ^ 64`. -/
theorem getTotalPayout_eq (b : CFinalizedBudget) :
    b.getTotalPayout = toInt64 (b.vecBudgetPayments.map CTxBudgetPayment.nAmount).sum := by
  have h := foldl_toInt64 b.vecBudgetPayments 0
  rw [zero_add] at h
  exact h

theorem totalBudgetSubsidy_le (nHeight : ℤ) : totalBudgetSubsidy env nHeight ≤ 50 * coin := by
  have hif : ∀ {c : Prop} [Decidable c] {x y : CAmount}, x ≤ 50 * coin → y ≤ 50 * coin →
      (if c then x else y) ≤ 50 * coin := by
    intro c _ x y hx hy
    split
    · exact hx
    · exact hy
  unfold totalBudgetSubsidy
  repeat refine hif (by decide) ?_
  decide

theorem getTotalBudget_lt (nHeight : ℤ) : getTotalBudget env nHeight < 2 ^ 63 := by
  unfold getTotalBudget
  split
  · decide
  · split
    · decide
    · split
      · decide
      · have hsubsidy := @totalBudgetSubsidy_le env nHeight
        generalize totalBudgetSubsidy env nHeight = nSubsidy at hsubsidy ⊢
        have hle : Int.tdiv nSubsidy 100 ≤ 50000000 :=
          Int.tdiv_le_tdiv (by decide : (0 : ℤ) < 100) hsubsidy
        change (Int.tdiv nSubsidy 100 * 10 * 1440 * 30 : ℤ) < 2 ^ 63
        omega

theorem CFinalizedBudget.isValid_ok {b b' : CFinalizedBudget} {fCheckCollateral : Bool}
    (h : b.isValid orc env fCheckCollateral = .ok b') :
    b.validError orc env fCheckCollateral = none ∧ ∃ n, b' = { b with nTime := n } := by
  unfold CFinalizedBudget.isValid at h
  split at h
  · cases h
  · next hnone => exact ⟨hnone, _, (Except.ok.inj h).symm⟩

theorem CBudgetProposal.isValid_ok {p p' : CBudgetProposal} {fCheckCollateral : Bool}
    (h : p.isValid orc env fCheckCollateral = some (.ok p')) :
    ∃ proto, activeProtocol env.sporks = some proto ∧
      p.validError orc env proto fCheckCollateral = none ∧ ∃ n, p' = { p with nTime := n } := by
  obtain ⟨proto, hproto, h⟩ := Option.map_eq_some_iff.mp h
  refine ⟨proto, hproto, ?_⟩
  split at h
  · cases h
  · next hnone => exact ⟨hnone, _, (Except.ok.inj h).symm⟩

theorem le_getTotalBudget_of_isValid {b b' : CFinalizedBudget} {fCheckCollateral : Bool}
    (h : b.isValid orc env fCheckCollateral = .ok b') :
    b.getTotalPayout ≤ getTotalBudget env b.nBlockStart := by
  have hnone := (CFinalizedBudget.isValid_ok h).1
  by_contra hlt
  rw [CFinalizedBudget.validError, if_pos (Int.not_le.mp hlt)] at hnone
  split_ifs at hnone

theorem collateral_of_isValid {b b' : CFinalizedBudget}
    (h : b.isValid orc env true = .ok b') :
    (isBudgetCollateralValid env b.nFeeTXHash (b.getHash orc)).fValid = true := by
  have hnone := (CFinalizedBudget.isValid_ok h).1
  by_contra hbad
  have hfails : (!(checkedCollateral env true b.nFeeTXHash (b.getHash orc)).fValid) = true := by
    simpa [checkedCollateral] using hbad
  rw [CFinalizedBudget.validError, if_pos hfails] at hnone
  split_ifs at hnone

theorem proposal_collateral_of_isValid {p p' : CBudgetProposal}
    (h : p.isValid orc env true = some (.ok p')) :
    (isBudgetCollateralValid env p.nFeeTXHash (p.getHash orc)).fValid = true := by
  obtain ⟨proto, -, hnone, -⟩ := CBudgetProposal.isValid_ok h
  by_contra hbad
  have hfails : (!(checkedCollateral env true p.nFeeTXHash (p.getHash orc)).fValid) = true := by
    simpa [checkedCollateral] using hbad
  rw [CBudgetProposal.validError, if_pos hfails] at hnone
  split_ifs at hnone

theorem le_sum_of_mem {payments : List CTxBudgetPayment}
    (hpos : ∀ payment ∈ payments, 0 ≤ payment.nAmount) {payment : CTxBudgetPayment}
    (h : payment ∈ payments) :
    payment.nAmount ≤ (payments.map CTxBudgetPayment.nAmount).sum := by
  refine List.single_le_sum ?_ _ (List.mem_map_of_mem h)
  intro x hx
  obtain ⟨p, hp, rfl⟩ := List.mem_map.mp hx
  exact hpos p hp

/-- A finalized budget that is accepted stays inside the budget exactly when it has no negative
amount and the exact sum of its amounts does not wrap around. -/
theorem payments_within_budget_iff (orc : Oracles) (env : Env) (b b' : CFinalizedBudget)
    (fCheckCollateral : Bool) (h : b.isValid orc env fCheckCollateral = .ok b') :
    b.InBudget env ↔ (∀ payment ∈ b.vecBudgetPayments, 0 ≤ payment.nAmount) ∧
      (b.vecBudgetPayments.map CTxBudgetPayment.nAmount).sum < 2 ^ 63 := by
  constructor
  · intro hin
    exact ⟨fun payment hp => (hin.each payment hp).1,
      lt_of_le_of_lt hin.total (getTotalBudget_lt _)⟩
  · rintro ⟨hpos, hlt⟩
    have hnonneg : 0 ≤ (b.vecBudgetPayments.map CTxBudgetPayment.nAmount).sum := by
      refine List.sum_nonneg fun x hx => ?_
      obtain ⟨p, hp, rfl⟩ := List.mem_map.mp hx
      exact hpos p hp
    have hsum := le_getTotalBudget_of_isValid h
    rw [getTotalPayout_eq, toInt64_of_lt hnonneg hlt] at hsum
    exact ⟨fun payment hp => ⟨hpos payment hp, le_trans (le_sum_of_mem hpos hp) hsum⟩, hsum⟩

section Runs

/-- The fee transaction of the finalized budget that starts at `nBlockStart`. -/
def sampleFeeTx (nBlockStart : ℤ) : CTransaction :=
  ⟨1, 1, [⟨⟨9, 0⟩, [], 0⟩], [⟨proposalFeeTx, findScript (BitVec.ofInt 256 nBlockStart), -10⟩], 0⟩

/-- A synced node of the main network that knows the masternodes `50:0` and `51:0`. -/
def sampleEnv : Env where
  fLiteMode := false
  isBlockchainSynced := true
  isSynced := true
  now := 1600000000
  networkID := .main
  nLastPOWBlock := 50000
  chainActive := .ofTip (.root ⟨7, 1600000000, 0, false, true, 0⟩)
  mapBlockIndex := .empty
  getTransaction := fun _ => some (sampleFeeTx 43200, 0)
  getIXConfirmations := fun _ => 6
  sporks := ⟨.empty, 1600000000⟩
  countEnabled := fun _ => 2
  find := fun o => if o = ⟨50, 0⟩ ∨ o = ⟨51, 0⟩ then some [] else none

/-- A finalized budget for the first cycle that pays the amounts. -/
def sampleBudget (amounts : List CAmount) : CFinalizedBudget where
  nBlockStart := 43200
  vecBudgetPayments := amounts.map fun nAmount => ⟨3, [0x51], nAmount⟩
  mapVotes := .empty
  strBudgetName := "main"
  nFeeTXHash := 1

/-- A negative payment makes room for one of twice the budget. -/
theorem negative_payment_hides_overrun :
    (sampleBudget [-(1296000 * coin), 1296000 * coin]).isValid sampleHashes sampleEnv true =
        .ok (sampleBudget [-(1296000 * coin), 1296000 * coin]) ∧
      ¬(sampleBudget [-(1296000 * coin), 1296000 * coin]).InBudget sampleEnv := by
  refine ⟨by rfl, fun h => ?_⟩
  exact absurd (h.each ⟨3, [0x51], -(1296000 * coin)⟩ (by decide)).1 (by decide)

theorem payments_within_budget_sample :
    (sampleBudget [648000 * coin]).InBudget sampleEnv ∧
      ¬(sampleBudget [-coin, coin]).InBudget sampleEnv := by
  have hvalid : ∀ amounts ∈ [[648000 * coin], [-coin, coin]],
      (sampleBudget amounts).isValid sampleHashes sampleEnv true = .ok (sampleBudget amounts) := by
    intro amounts hamounts
    rcases List.mem_pair.mp hamounts with rfl | rfl <;> rfl
  constructor
  · exact (payments_within_budget_iff sampleHashes sampleEnv _ _ true
      (hvalid _ (by decide))).mpr (by decide)
  · rw [payments_within_budget_iff sampleHashes sampleEnv _ _ true (hvalid _ (by decide))]
    decide

end Runs

end Scrypta.Budget
