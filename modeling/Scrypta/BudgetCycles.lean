import Mathlib.Algebra.Order.BigOperators.Group.Finset
import Scrypta.BudgetRules
import Scrypta.Emission

/-! The payment cycles of the budget: the cycles in which a proposal can be paid, and what a
cycle may pay beside what its blocks mint. -/

namespace Scrypta.Budget

open Spork Kernel

section Window

variable (orc : Oracles) (env : Env)

/-- The first block of the cycle after the one of this height, as `GetBudget` computes it. -/
def nextCycleStart (nHeight : ℤ) : ℤ :=
  nHeight - nHeight.tmod (getBudgetPaymentCycleBlocks env) + getBudgetPaymentCycleBlocks env

/-- The last block of the cycle that begins at `nBlockStart`. -/
def cycleEnd (nBlockStart : ℤ) : ℤ := nBlockStart + getBudgetPaymentCycleBlocks env - 1

/-- "prop start/end should be inside this period" -/
def CBudgetProposal.inPeriod (p : CBudgetProposal) (nBlockStart : ℤ) : Bool :=
  decide (p.nBlockStart ≤ nBlockStart) && decide (cycleEnd env nBlockStart ≤ p.nBlockEnd)

def CBudgetProposal.getBlockStartCycle (p : CBudgetProposal) : ℤ :=
  p.nBlockStart - p.nBlockStart.tmod (getBudgetPaymentCycleBlocks env)

def CBudgetProposal.getBlockEndCycle (p : CBudgetProposal) : ℤ :=
  toInt32 (p.nBlockEnd - (getBudgetPaymentCycleBlocks env).tdiv 2)

def CBudgetProposal.getTotalPaymentCount (p : CBudgetProposal) : ℤ :=
  (toInt32 (p.getBlockEndCycle env - p.getBlockStartCycle env)).tdiv
    (getBudgetPaymentCycleBlocks env)

/-- The proposal that `CBudgetProposalBroadcast` builds. -/
def budgetProposalBroadcast (strProposalNameIn strURLIn : String) (nPaymentCount : ℤ)
    (addressIn : CScript) (nAmountIn : CAmount) (nBlockStartIn : ℤ) (nFeeTXHashIn : Uint256) :
    CBudgetProposal :=
  let nCycleStart := nBlockStartIn - nBlockStartIn.tmod (getBudgetPaymentCycleBlocks env)
  { strProposalName := strProposalNameIn
    strURL := strURLIn
    nBlockStart := nBlockStartIn
    nBlockEnd := toInt32 (nCycleStart + getBudgetPaymentCycleBlocks env * nPaymentCount +
      (getBudgetPaymentCycleBlocks env).tdiv 2)
    nAmount := nAmountIn
    address := addressIn
    nTime := 0
    nFeeTXHash := nFeeTXHashIn
    mapVotes := .empty }

/-- The proposal passes the test of the period in `n` cycles from `nBlockStart` on and in no
other, it counts as many payments, and it is not dropped as ended while a payment is to come,
whatever votes it has got. -/
structure CBudgetProposal.Payable (p : CBudgetProposal) (n nBlockStart : ℤ) : Prop where
  inPeriod : ∀ nCycleStart, getBudgetPaymentCycleBlocks env ∣ nCycleStart →
    (p.inPeriod env nCycleStart = true ↔
      ∃ i, 0 ≤ i ∧ i < n ∧ nCycleStart = nBlockStart + getBudgetPaymentCycleBlocks env * i)
  count : p.getTotalPaymentCount env = n
  kept : ∀ (env' : Env) (pindexPrev : CBlockIndex) (proto : ℤ) (fCheckCollateral : Bool)
    (mapVotes : Dict Uint256 CBudgetVote), env'.networkID = env.networkID →
    env'.chainActive.tip = some pindexPrev →
    pindexPrev.height ≤ nBlockStart + getBudgetPaymentCycleBlocks env * (n - 1) →
    CBudgetProposal.validError orc env' { p with mapVotes } proto fCheckCollateral ≠
      some "Invalid nBlockEnd (end too early)"

variable {env}

variable (env) in
/-- A cycle is two halves of whole blocks. -/
theorem cycle_halves : ∃ half, 72 ≤ half ∧ half ≤ 21600 ∧
    getBudgetPaymentCycleBlocks env = 2 * half ∧
    (getBudgetPaymentCycleBlocks env).tdiv 2 = half := by
  unfold getBudgetPaymentCycleBlocks
  split
  · exact ⟨21600, by decide, by decide, by decide, by decide⟩
  · exact ⟨72, by decide, by decide, by decide, by decide⟩

variable (env) in
theorem cycle_pos : 0 < getBudgetPaymentCycleBlocks env := by
  obtain ⟨half, hlo, -, hcycle, -⟩ := cycle_halves env
  omega

section Payments

variable {strProposalName strURL : String} {n nBlockStart : ℤ} {address : CScript}
  {nAmount : CAmount} {nFeeTXHash : Uint256}

theorem broadcast_nBlockEnd (haligned : getBudgetPaymentCycleBlocks env ∣ nBlockStart) :
    (budgetProposalBroadcast env strProposalName strURL n address nAmount nBlockStart
      nFeeTXHash).nBlockEnd = toInt32 (nBlockStart + getBudgetPaymentCycleBlocks env * n +
        (getBudgetPaymentCycleBlocks env).tdiv 2) := by
  unfold budgetProposalBroadcast
  rw [Int.tmod_eq_zero_of_dvd haligned, sub_zero]

/-- The half cycle after the last payment ends before another cycle does. -/
theorem inPeriod_iff {p : CBudgetProposal}
    (haligned : getBudgetPaymentCycleBlocks env ∣ nBlockStart)
    (hstart : p.nBlockStart = nBlockStart)
    (hend : p.nBlockEnd = nBlockStart + getBudgetPaymentCycleBlocks env * n +
      (getBudgetPaymentCycleBlocks env).tdiv 2)
    {nCycleStart : ℤ} (hcycle : getBudgetPaymentCycleBlocks env ∣ nCycleStart) :
    p.inPeriod env nCycleStart = true ↔
      ∃ i, 0 ≤ i ∧ i < n ∧ nCycleStart = nBlockStart + getBudgetPaymentCycleBlocks env * i := by
  obtain ⟨half, hlo, -, hblocks, hhalf⟩ := cycle_halves env
  unfold CBudgetProposal.inPeriod cycleEnd
  rw [Bool.and_eq_true, decide_eq_true_eq, decide_eq_true_eq, hstart, hend, hhalf]
  generalize getBudgetPaymentCycleBlocks env = cycle at *
  obtain ⟨i, hi⟩ := Int.dvd_sub hcycle haligned
  have hat : nCycleStart = nBlockStart + cycle * i := by omega
  have hpos : 0 < cycle := by omega
  constructor
  · rintro ⟨hfrom, hto⟩
    have hnonneg : 0 ≤ cycle * i := by omega
    have hbelow : cycle * i < cycle * n := by
      by_contra hmore
      omega
    exact ⟨i, nonneg_of_mul_nonneg_right hnonneg hpos, lt_of_mul_lt_mul_left hbelow hpos.le, hat⟩
  · rintro ⟨j, hj0, hjn, rfl⟩
    have hfrom : 0 ≤ cycle * j := Int.mul_nonneg hpos.le hj0
    have hto : cycle * (j + 1) ≤ cycle * n := Int.mul_le_mul_of_nonneg_left hjn hpos.le
    rw [mul_add, mul_one] at hto
    omega

theorem getTotalPaymentCount_eq {p : CBudgetProposal}
    (haligned : getBudgetPaymentCycleBlocks env ∣ nBlockStart) (hn : 1 ≤ n)
    (hnonneg : 0 ≤ nBlockStart) (hstart : p.nBlockStart = nBlockStart)
    (hend : p.nBlockEnd = nBlockStart + getBudgetPaymentCycleBlocks env * n +
      (getBudgetPaymentCycleBlocks env).tdiv 2)
    (hfits : p.nBlockEnd < 2 ^ 31) : p.getTotalPaymentCount env = n := by
  obtain ⟨half, hlo, -, hblocks, hhalf⟩ := cycle_halves env
  unfold CBudgetProposal.getTotalPaymentCount CBudgetProposal.getBlockEndCycle
    CBudgetProposal.getBlockStartCycle
  rw [hend, hhalf] at hfits
  rw [hstart, hend, hhalf, add_sub_cancel_right, Int.tmod_eq_zero_of_dvd haligned, sub_zero]
  generalize getBudgetPaymentCycleBlocks env = cycle at *
  have hpaid : 0 ≤ cycle * n := Int.mul_nonneg (by omega) (by omega)
  have hendCycle : toInt32 (nBlockStart + cycle * n) = nBlockStart + cycle * n :=
    toInt32_eq_self (by omega) (by omega)
  rw [hendCycle, add_sub_cancel_left, toInt32_eq_self (by omega) (by omega)]
  exact Int.mul_tdiv_cancel_left n (by omega)

/-- Only the check against the tip says that the end is too early. -/
theorem validError_ne_early {p : CBudgetProposal} {proto : ℤ} {fCheckCollateral : Bool}
    {pindexPrev : CBlockIndex} (htip : env.chainActive.tip = some pindexPrev)
    (hend : pindexPrev.height - (getBudgetPaymentCycleBlocks env).tdiv 2 ≤ p.nBlockEnd) :
    p.validError orc env proto fCheckCollateral ≠ some "Invalid nBlockEnd (end too early)" := by
  unfold CBudgetProposal.validError
  split_ifs <;> try decide
  rw [htip]
  dsimp only
  rw [if_neg (not_lt.2 hend)]
  exact nofun

/-- An end beyond the range of an `int` comes out before the last payment. -/
theorem toInt32_lt_of_ge {x : ℤ} (h : 2 ^ 31 ≤ x) : toInt32 x ≤ x - 2 ^ 32 := by
  have hmod := Int.bmod_add_bdiv x (2 ^ 32)
  have hlt := Int.bmod_lt (x := x) (m := 2 ^ 32) (by decide)
  unfold toInt32
  omega

/-- A proposal is payable for its payments exactly when its end block is an `int`. -/
theorem payable_iff (orc : Oracles) (env : Env) (strProposalName strURL : String)
    (n nBlockStart : ℤ) (address : CScript) (nAmount : CAmount) (nFeeTXHash : Uint256)
    (hn : 1 ≤ n) (hstart : 0 ≤ nBlockStart)
    (haligned : getBudgetPaymentCycleBlocks env ∣ nBlockStart) :
    (budgetProposalBroadcast env strProposalName strURL n address nAmount nBlockStart
        nFeeTXHash).Payable orc env n nBlockStart ↔
      nBlockStart + getBudgetPaymentCycleBlocks env * n +
        (getBudgetPaymentCycleBlocks env).tdiv 2 < 2 ^ 31 := by
  have hend : (budgetProposalBroadcast env strProposalName strURL n address nAmount nBlockStart
      nFeeTXHash).nBlockEnd = _ := broadcast_nBlockEnd haligned
  obtain ⟨half, hlo, hhi, hblocks, hhalf⟩ := cycle_halves env
  have hpaid : getBudgetPaymentCycleBlocks env * 1 ≤ getBudgetPaymentCycleBlocks env * n :=
    Int.mul_le_mul_of_nonneg_left hn (cycle_pos env).le
  constructor
  · intro h
    by_contra hmore
    have hlast := (h.inPeriod (nBlockStart + getBudgetPaymentCycleBlocks env * (n - 1))
      (Int.dvd_add haligned (Int.dvd_mul_right _ _))).2 ⟨n - 1, by omega, by omega, rfl⟩
    have hwraps := toInt32_lt_of_ge (not_lt.1 hmore)
    unfold CBudgetProposal.inPeriod cycleEnd at hlast
    rw [Bool.and_eq_true, decide_eq_true_eq, decide_eq_true_eq, hend] at hlast
    have hlate := hlast.2
    rw [mul_sub, mul_one] at hlate
    rw [hhalf] at hwraps hlate
    omega
  · intro hfits
    rw [toInt32_eq_self (by omega) hfits] at hend
    refine ⟨fun nCycleStart hcycle => inPeriod_iff haligned rfl hend hcycle,
      getTotalPaymentCount_eq haligned hn hstart rfl hend (hend ▸ hfits), ?_⟩
    intro env' pindexPrev proto fCheckCollateral mapVotes hnet htip hheight
    have hsame : getBudgetPaymentCycleBlocks env' = getBudgetPaymentCycleBlocks env := by
      unfold getBudgetPaymentCycleBlocks
      rw [hnet]
    refine validError_ne_early orc htip ?_
    dsimp only
    rw [mul_sub, mul_one] at hheight
    rw [hend, hsame, hhalf]
    omega

/-- 49711 payments from the first cycle on. The product alone leaves the range of an `int`. -/
theorem payments_overflow :
    ¬(budgetProposalBroadcast sampleEnv "website" "https://example.org" 49711 [0x51] (100 * coin)
      43200 1).Payable sampleHashes sampleEnv 49711 43200 := by
  intro h
  have hfirst := (h.inPeriod 43200 (by decide)).2 ⟨0, by decide, by decide, by decide⟩
  revert hfirst
  decide

theorem payable_sample :
    (budgetProposalBroadcast sampleEnv "website" "https://example.org" 2 [0x51] (100 * coin)
      43200 1).Payable sampleHashes sampleEnv 2 43200 :=
  (payable_iff sampleHashes sampleEnv _ _ 2 43200 _ _ _ (by decide) (by decide) (by decide)).2
    (by decide)

end Payments

end Window

section Emission

open Validation

variable {env : Env} {par : Validation.Params} {nMoneySupply : ℤ → CAmount} {h : ℤ}

/-- What the blocks of the cycle that begins at `h` mint. `nMoneySupply` is the money supply at
the tip when the value of a block is asked for, by the height of the block. -/
def cycleEmission (env : Env) (par : Validation.Params) (nMoneySupply : ℤ → CAmount) (h : ℤ) :
    CAmount :=
  ∑ i ∈ Finset.range (getBudgetPaymentCycleBlocks env).toNat,
    getBlockValue par (nMoneySupply (h + i)) (h + i)

/-- No block of the cycle comes near the limit on the supply. -/
def FarFromCap (env : Env) (par : Validation.Params) (nMoneySupply : ℤ → CAmount) (h : ℤ) : Prop :=
  ∀ n, h ≤ n → n < h + getBudgetPaymentCycleBlocks env →
    nMoneySupply n + 10 * coin ≤ par.nMaxMoneyOut

theorem getBlockValue_eq_nSubsidy {n : ℤ} (h : 751 < n)
    (hroom : nMoneySupply n + 10 * coin ≤ par.nMaxMoneyOut) :
    getBlockValue par (nMoneySupply n) n = nSubsidy (n - 1) := by
  have hle : nSubsidy (n - 1) ≤ nSubsidy 751 :=
    nSubsidy_antitone (by decide) (by omega) (by decide)
  have hten : nSubsidy 751 = 10 * coin := by decide
  have hcoin : 0 < 10 * coin := by decide
  rw [getBlockValue_eq_min (lt_of_lt_of_le (lt_add_of_pos_right _ hcoin) hroom)]
  exact min_eq_left (le_sub_iff_add_le'.2 (le_trans (add_le_add_right (hle.trans hten.le) _) hroom))

/-- A bound on the rows of the schedule that the blocks from `h` on use bounds their sum. -/
theorem sum_le_of_forall_le {f : ℕ → CAmount} {a : CAmount} {n : ℕ}
    (h : ∀ i < n, f i ≤ a) : ∑ i ∈ Finset.range n, f i ≤ n * a := by
  have hsum := Finset.sum_le_card_nsmul (Finset.range n) f a fun i hi => h i (Finset.mem_range.1 hi)
  rwa [Finset.card_range, nsmul_eq_mul] at hsum

theorem le_sum_of_forall_le {f : ℕ → CAmount} {a : CAmount} {n : ℕ}
    (h : ∀ i < n, a ≤ f i) : n * a ≤ ∑ i ∈ Finset.range n, f i := by
  have hsum := Finset.card_nsmul_le_sum (Finset.range n) f a fun i hi => h i (Finset.mem_range.1 hi)
  rwa [Finset.card_range, nsmul_eq_mul] at hsum

theorem cycleEmission_eq (hmain : env.networkID = .main) (hpow : 751 < h)
    (hroom : FarFromCap env par nMoneySupply h) :
    cycleEmission env par nMoneySupply h =
      ∑ i ∈ Finset.range 43200, nSubsidy (h + (i : ℕ) - 1) := by
  have hblocks : getBudgetPaymentCycleBlocks env = 43200 := if_pos hmain
  unfold FarFromCap at hroom
  unfold cycleEmission
  rw [hblocks] at hroom ⊢
  refine Finset.sum_congr rfl fun i hi => ?_
  have hlt : i < 43200 := Finset.mem_range.1 hi
  exact getBlockValue_eq_nSubsidy (by omega) (hroom _ (by omega) (by omega))

theorem getTotalBudget_early (htip : env.chainActive.tip.isSome) (hmain : env.networkID = .main)
    (h172800 : h ≤ 172800) : getTotalBudget env h = 648000 * coin := by
  unfold getTotalBudget
  rw [if_neg (by rw [Option.isNone_iff_eq_none]; exact Option.isSome_iff_ne_none.1 htip),
    if_neg (by rw [hmain]; decide), if_pos h172800]

theorem getTotalBudget_late (htip : env.chainActive.tip.isSome) (hmain : env.networkID = .main)
    (h172800 : 172800 < h) :
    getTotalBudget env h = (totalBudgetSubsidy env h).tdiv 100 * 10 * 1440 * 30 := by
  unfold getTotalBudget
  rw [if_neg (by rw [Option.isNone_iff_eq_none]; exact Option.isSome_iff_ne_none.1 htip),
    if_neg (by rw [hmain]; decide), if_neg (not_le.2 h172800)]

theorem ite_elim {P : CAmount → Prop} {c : Prop} [Decidable c] {a b : CAmount} (hit : c → P a)
    (hmiss : ¬c → P b) : P (if c then a else b) := by
  split
  · exact hit ‹_›
  · exact hmiss ‹_›

/-- Before the last row of the schedule of the budget a cycle has at least ten coins a block. -/
theorem le_totalBudgetSubsidy (hpow : env.nLastPOWBlock < h) (h648000 : h < 648000) :
    10 * coin ≤ totalBudgetSubsidy env h := by
  unfold totalBudgetSubsidy
  iterate 10 refine ite_elim (P := fun m => 10 * coin ≤ m) (fun _ => by decide) fun _ => ?_
  refine ite_elim (P := fun m => 10 * coin ≤ m) (fun _ => by omega) fun _ => ?_
  omega

theorem totalBudgetSubsidy_last (hpow : env.nLastPOWBlock < h) (h648000 : 648000 ≤ h) :
    totalBudgetSubsidy env h = 5 * coin := by
  unfold totalBudgetSubsidy
  iterate 10 refine ite_elim (P := fun m => m = 5 * coin) (fun _ => by omega) fun _ => ?_
  exact if_pos h648000

/-- Up to the last row of the schedule of the budget the cycle mints less. -/
theorem emission_lt_early (hfirst : 43200 ≤ h) (htip : env.chainActive.tip.isSome)
    (hmain : env.networkID = .main) (h172800 : h ≤ 172800) :
    ∑ i ∈ Finset.range 43200, nSubsidy (h + (i : ℕ) - 1) < 10 * getTotalBudget env h := by
  have hrow : ∀ i < 43200, nSubsidy (h + (i : ℕ) - 1) ≤ nSubsidy 751 := fun i _ =>
    nSubsidy_antitone (by decide) (by omega) (by decide)
  rw [getTotalBudget_early htip hmain h172800]
  exact lt_of_le_of_lt (sum_le_of_forall_le hrow) (by decide)

theorem emission_lt_middle (hpow : env.nLastPOWBlock < h) (htip : env.chainActive.tip.isSome)
    (hmain : env.networkID = .main) (h216000 : 216000 ≤ h) (h648000 : h < 648000) :
    ∑ i ∈ Finset.range 43200, nSubsidy (h + (i : ℕ) - 1) < 10 * getTotalBudget env h := by
  have hrow : ∀ i < 43200, nSubsidy (h + (i : ℕ) - 1) ≤ nSubsidy 180302 := fun i _ =>
    nSubsidy_antitone (by decide) (by omega) (by decide)
  rw [getTotalBudget_late htip hmain (by omega)]
  refine lt_of_le_of_lt (sum_le_of_forall_le hrow) ?_
  have hten := le_totalBudgetSubsidy hpow h648000
  generalize totalBudgetSubsidy env h = nSubsidy at hten ⊢
  have hdiv : Int.tdiv (10 * coin) 100 ≤ Int.tdiv nSubsidy 100 :=
    Int.tdiv_le_tdiv (by decide : (0 : ℤ) < 100) hten
  have hcoin : Int.tdiv (10 * coin) 100 = 10000000 := by decide
  have hnine : ((43200 : ℕ) : ℤ) * Validation.nSubsidy 180302 = 38880000000000 := by decide
  rw [hnine]
  change (38880000000000 : ℤ) < 10 * (Int.tdiv nSubsidy 100 * 10 * 1440 * 30)
  omega

theorem le_emission_last (htip : env.chainActive.tip.isSome) (hmain : env.networkID = .main)
    (hpow : env.nLastPOWBlock < h) (h648000 : 648000 ≤ h) (h3240000 : h ≤ 3240000) :
    10 * getTotalBudget env h ≤ ∑ i ∈ Finset.range 43200, nSubsidy (h + (i : ℕ) - 1) := by
  have hrow : ∀ i < 43200, nSubsidy 3290705 ≤ nSubsidy (h + (i : ℕ) - 1) := fun i _ =>
    nSubsidy_antitone (by omega) (by omega) (by omega)
  rw [getTotalBudget_late htip hmain (by omega), totalBudgetSubsidy_last hpow h648000]
  exact le_trans (by decide) (le_sum_of_forall_le hrow)

/-- The first 7507 blocks of the cycle at 3283200 are the last ones of their row. -/
theorem emission_lt_late (htip : env.chainActive.tip.isSome) (hmain : env.networkID = .main)
    (hpow : env.nLastPOWBlock < h) (h3283200 : 3283200 ≤ h) :
    ∑ i ∈ Finset.range 43200, nSubsidy (h + (i : ℕ) - 1) < 10 * getTotalBudget env h := by
  have hfirst : ∀ i < 7507, nSubsidy (h + (i : ℕ) - 1) ≤ nSubsidy 3283199 := fun i _ =>
    nSubsidy_antitone (by decide) (by omega) (by decide)
  have hrest : ∀ i < 35693, nSubsidy (h + ((7507 + i : ℕ) : ℤ) - 1) ≤ nSubsidy 3290706 :=
    fun i _ => nSubsidy_antitone (by decide) (by omega) (by decide)
  rw [getTotalBudget_late htip hmain (by omega), totalBudgetSubsidy_last hpow (by omega),
    Finset.sum_range_add _ 7507 35693]
  exact lt_of_le_of_lt (add_le_add (sum_le_of_forall_le hfirst) (sum_le_of_forall_le hrest))
    (by decide)

/-- The budget of a cycle is a tenth of what its blocks mint in the cycles from 648000 to 3240000
only. -/
theorem budget_le_tenth_iff (env : Env) (par : Validation.Params) (nMoneySupply : ℤ → CAmount)
    (h : ℤ) (hmain : env.networkID = .main) (hpow : env.nLastPOWBlock = 750)
    (htip : env.chainActive.tip.isSome) (hroom : FarFromCap env par nMoneySupply h)
    (habove : env.nLastPOWBlock < h) (hstart : getBudgetPaymentCycleBlocks env ∣ h) :
    10 * getTotalBudget env h ≤ cycleEmission env par nMoneySupply h ↔
      648000 ≤ h ∧ h < 3283200 := by
  have hblocks : getBudgetPaymentCycleBlocks env = 43200 := if_pos hmain
  rw [hblocks] at hstart
  rw [cycleEmission_eq hmain (by omega) hroom]
  by_cases h172800 : h ≤ 172800
  · exact iff_of_false (not_le.2 (emission_lt_early (by omega) htip hmain h172800)) (by omega)
  by_cases h648000 : h < 648000
  · exact iff_of_false
      (not_le.2 (emission_lt_middle habove htip hmain (by omega) h648000)) (by omega)
  by_cases h3283200 : h < 3283200
  · exact iff_of_true (le_emission_last htip hmain habove (by omega) (by omega)) (by omega)
  · exact iff_of_false (not_le.2 (emission_lt_late htip hmain habove (by omega))) (by omega)

/-- A node of the main network before the limit on the supply. -/
def sampleMain : Env := { sampleEnv with nLastPOWBlock := 750 }

theorem sampleMain_far (h : ℤ) : FarFromCap sampleMain mainParams (fun _ => 10000000 * coin) h :=
  fun _ _ _ => (by decide : 10000000 * coin + 10 * coin ≤ mainParams.nMaxMoneyOut)

/-- The blocks from 43200 to 86399 mint 432000 coins, and the budget of the cycle is 648000. -/
theorem first_cycle_overspends :
    FarFromCap sampleMain mainParams (fun _ => 10000000 * coin) 43200 ∧
      getBudgetPaymentCycleBlocks sampleMain ∣ 43200 ∧
      ¬10 * getTotalBudget sampleMain 43200 ≤
        cycleEmission sampleMain mainParams (fun _ => 10000000 * coin) 43200 := by
  refine ⟨sampleMain_far _, by decide, not_le.2 ?_⟩
  rw [cycleEmission_eq rfl (by decide) (sampleMain_far _)]
  exact emission_lt_early (by decide) rfl rfl (by decide)

theorem budget_le_tenth_sample :
    10 * getTotalBudget sampleMain 648000 ≤
      cycleEmission sampleMain mainParams (fun _ => 10000000 * coin) 648000 :=
  (budget_le_tenth_iff sampleMain mainParams _ 648000 rfl rfl rfl (sampleMain_far _) (by decide)
    (by decide)).2 (by decide)

end Emission

end Scrypta.Budget
