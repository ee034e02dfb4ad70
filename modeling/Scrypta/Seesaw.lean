import Scrypta.MasternodePayment

/-! The masternode payment over the number of masternodes. What the payment does with its decimal
factors is a parameter here: the products of doubles that the program computes, and the products
with the exact fractions. -/

namespace Scrypta.Payees

open Validation Binary64

/-- The number that the coins are compared as, the bound of a branch in thousandths of the money
supply, and the amount of a share in hundredths. -/
structure Arithmetic where
  coins : CAmount → ℚ
  bound : CAmount → ℕ → ℚ
  amount : CAmount → ℕ → CAmount

def doubles : Arithmetic where
  coins := ofInt
  bound nMoneySupply n := mul (ofInt nMoneySupply) (literal n 1000)
  amount := Payees.amount

def fractions : Arithmetic where
  coins c := c
  bound nMoneySupply n := nMoneySupply * (n / 1000)
  amount blockValue n := truncate (blockValue * (n / 100))

variable (ar : Arithmetic)

/-- The branch that is taken. -/
def rowIn (coins nMoneySupply : CAmount) : ℚ → List (ℕ × ℕ) → ℕ
  | _, [] => 0
  | low, (bound, _) :: rest =>
    let high := ar.bound nMoneySupply bound
    if ar.coins coins ≤ high ∧ low < ar.coins coins then 0
    else rowIn coins nMoneySupply high rest + 1

variable (node : Node) (tip : CBlockIndex)

/-- `GetMasternodePayment` in this arithmetic. -/
def paymentIn (nHeight : ℤ) (blockValue : CAmount) (nMasternodeCount : ℤ) : CAmount :=
  if nHeight ≤ 7500 then blockValue.tdiv 5
  else if node.par.nLastPOWBlock < nHeight then
    if mNodeCoins node nMasternodeCount = 0 then 0
    else ar.amount blockValue (share (tableAt nHeight) (restAt nHeight)
      (rowIn ar (mNodeCoins node nMasternodeCount) (node.env.nMoneySupply tip) 0
        (tableAt nHeight)))
  else 0

theorem rowIn_doubles (coins nMoneySupply : CAmount) (low : ℚ) (table : List (ℕ × ℕ)) :
    rowIn doubles coins nMoneySupply low table =
      row (ofInt coins) (ofInt nMoneySupply) low table := by
  induction table generalizing low with
  | nil => rfl
  | cons entry rest ih =>
    rw [rowIn, row, ih]
    rfl

/-- The payment in doubles is the one of the program. -/
theorem paymentIn_doubles (nHeight : ℤ) (blockValue : CAmount) (nMasternodeCount : ℤ) :
    paymentIn doubles node tip nHeight blockValue nMasternodeCount =
      getMasternodePayment node tip nHeight blockValue nMasternodeCount := by
  unfold paymentIn getMasternodePayment rowOf
  rw [rowIn_doubles]
  rfl

/-- Order is kept. -/
structure Arithmetic.Monotone : Prop where
  coins_pos : ∀ {c : CAmount}, 0 < c → 0 < ar.coins c
  coins_mono : ∀ {c c' : CAmount}, 0 ≤ c → c ≤ c' → ar.coins c ≤ ar.coins c'
  amount_mono : ∀ {v : CAmount} {n n' : ℕ}, 0 ≤ v → n ≤ n' → ar.amount v n ≤ ar.amount v n'
  amount_zero : ∀ v : CAmount, ar.amount v 0 = 0

theorem monotone_doubles : doubles.Monotone where
  coins_pos := ofInt_pos
  coins_mono := ofInt_mono
  amount_mono hv h := Payees.amount_mono hv h
  amount_zero := Payees.amount_zero

theorem monotone_fractions : fractions.Monotone where
  coins_pos h := Int.cast_pos.2 h
  coins_mono _ h := Int.cast_le.2 h
  amount_mono := by
    intro v n n' hv h
    have hv' : (0 : ℚ) ≤ v := Int.cast_nonneg hv
    have hn : (0 : ℚ) ≤ n / 100 := by positivity
    refine truncate_mono (mul_nonneg hv' hn) (mul_le_mul_of_nonneg_left ?_ hv')
    exact div_le_div_of_nonneg_right (Nat.cast_le.2 h) (by norm_num)
  amount_zero v := by
    change truncate ((v : ℚ) * (((0 : ℕ) : ℚ) / 100)) = 0
    rw [Nat.cast_zero, zero_div, mul_zero]
    rfl

/-- Not more than all of the value is paid. -/
theorem fractions_amount_le {v : CAmount} (hv : 0 ≤ v) {n : ℕ} (h : n ≤ 100) :
    fractions.amount v n ≤ v := by
  have hall : fractions.amount v 100 = v := by
    change truncate ((v : ℚ) * (((100 : ℕ) : ℚ) / 100)) = v
    have hv' : (0 : ℚ) ≤ v := Int.cast_nonneg hv
    have hone : (v : ℚ) * (((100 : ℕ) : ℚ) / 100) = v := by norm_num
    rw [hone, truncate, if_pos hv', Int.floor_intCast]
  exact (monotone_fractions.amount_mono hv h).trans_eq hall

variable {ar} {node} {tip}

/-- With more coins no earlier branch is taken. -/
theorem rowIn_mono (h : ar.Monotone) {coins coins' : CAmount} (hpos : 0 < coins)
    (hle : coins ≤ coins') (nMoneySupply : CAmount) {low : ℚ} (hlow : low < ar.coins coins)
    (table : List (ℕ × ℕ)) :
    rowIn ar coins nMoneySupply low table ≤ rowIn ar coins' nMoneySupply low table := by
  have hcoins := h.coins_mono hpos.le hle
  induction table generalizing low with
  | nil => exact Nat.le_refl _
  | cons entry rest ih =>
    rw [rowIn, rowIn]
    by_cases hhigh : ar.coins coins ≤ ar.bound nMoneySupply entry.1
    · rw [if_pos ⟨hhigh, hlow⟩]
      exact Nat.zero_le _
    · have hhigh' : ¬ar.coins coins' ≤ ar.bound nMoneySupply entry.1 :=
        fun hle' => hhigh (hcoins.trans hle')
      rw [if_neg fun hc => hhigh hc.1, if_neg fun hc => hhigh' hc.1]
      exact Nat.succ_le_succ (ih (not_le.mp hhigh))

/-- The collaterals do not wrap as long as they fit in 64 bits. -/
theorem mNodeCoins_eq {n : ℤ} (hpos : 0 < n) (hcollateral : 0 ≤ node.nMasternodeCollateralAmt)
    (hfits : n * node.nMasternodeCollateralAmt * coin < 2 ^ 63) :
    mNodeCoins node n = n * node.nMasternodeCollateralAmt * coin := by
  have hprod : 0 ≤ n * node.nMasternodeCollateralAmt := mul_nonneg hpos.le hcollateral
  have hcoin : coin = 100000000 := rfl
  unfold mNodeCoins
  rw [if_neg hpos.ne']
  generalize n * node.nMasternodeCollateralAmt = m at hprod hfits ⊢
  rw [hcoin] at hfits ⊢
  have hinner : toInt64 m = m := toInt64_eq_self (by linarith) (by linarith)
  rw [hinner, toInt64_eq_self (by linarith) hfits]

theorem mNodeCoins_mono {n₁ n₂ : ℤ} (hpos : 0 < n₁) (hle : n₁ ≤ n₂)
    (hcollateral : 0 ≤ node.nMasternodeCollateralAmt)
    (hfits : n₂ * node.nMasternodeCollateralAmt * coin < 2 ^ 63) :
    0 ≤ mNodeCoins node n₁ ∧ mNodeCoins node n₁ ≤ mNodeCoins node n₂ ∧
      (mNodeCoins node n₁ = 0 → mNodeCoins node n₂ = 0) := by
  have hcoin : 0 ≤ coin := by decide
  have hprod : n₁ * node.nMasternodeCollateralAmt * coin ≤
      n₂ * node.nMasternodeCollateralAmt * coin :=
    mul_le_mul_of_nonneg_right (mul_le_mul_of_nonneg_right hle hcollateral) hcoin
  rw [mNodeCoins_eq hpos hcollateral (hprod.trans_lt hfits),
    mNodeCoins_eq (hpos.trans_le hle) hcollateral hfits]
  refine ⟨mul_nonneg (mul_nonneg hpos.le hcollateral) hcoin, hprod, fun hzero => ?_⟩
  have hnone : node.nMasternodeCollateralAmt = 0 := by
    rcases mul_eq_zero.1 hzero with hzero | hzero
    · exact (mul_eq_zero.1 hzero).resolve_left hpos.ne'
    · exact absurd hzero (by decide)
  rw [hnone, mul_zero, zero_mul]

/-- More masternodes are not paid more, in both arithmetics. -/
theorem paymentIn_antitone (h : ar.Monotone) (nHeight : ℤ) {blockValue : CAmount}
    (hvalue : 0 ≤ blockValue) {n₁ n₂ : ℤ} (hcoins : 0 ≤ mNodeCoins node n₁)
    (hle : mNodeCoins node n₁ ≤ mNodeCoins node n₂)
    (hpos : mNodeCoins node n₁ = 0 → mNodeCoins node n₂ = 0) :
    paymentIn ar node tip nHeight blockValue n₂ ≤ paymentIn ar node tip nHeight blockValue n₁ := by
  unfold paymentIn
  by_cases hearly : nHeight ≤ 7500
  · rw [if_pos hearly, if_pos hearly]
  · rw [if_neg hearly, if_neg hearly]
    by_cases hpow : node.par.nLastPOWBlock < nHeight
    · rw [if_pos hpow, if_pos hpow]
      by_cases hzero : mNodeCoins node n₁ = 0
      · rw [if_pos hzero, if_pos (hpos hzero)]
      · have hcoins₁ : 0 < mNodeCoins node n₁ := lt_of_le_of_ne hcoins (Ne.symm hzero)
        rw [if_neg hzero, if_neg (hcoins₁.trans_le hle).ne']
        apply h.amount_mono hvalue
        apply share_antitone (sorted_shares nHeight)
        exact rowIn_mono h hcoins₁ hle _ (h.coins_pos hcoins₁) _
    · rw [if_neg hpow, if_neg hpow]

theorem paymentIn_nonneg (h : ar.Monotone) (nHeight : ℤ) {blockValue : CAmount}
    (hvalue : 0 ≤ blockValue) (n : ℤ) : 0 ≤ paymentIn ar node tip nHeight blockValue n := by
  unfold paymentIn
  split_ifs
  · exact Int.tdiv_nonneg hvalue (by decide)
  · exact Int.le_refl 0
  · exact (h.amount_zero blockValue).ge.trans (h.amount_mono hvalue (Nat.zero_le _))
  · exact Int.le_refl 0

theorem share_le_hundred (nHeight : ℤ) (k : ℕ) :
    share (tableAt nHeight) (restAt nHeight) k ≤ 100 := by
  refine (share_antitone (sorted_shares nHeight) (Nat.zero_le k)).trans ?_
  unfold tableAt restAt
  split <;> decide

theorem paymentIn_fractions_le (nHeight : ℤ) {blockValue : CAmount} (hvalue : 0 ≤ blockValue)
    (n : ℤ) : paymentIn fractions node tip nHeight blockValue n ≤ blockValue := by
  unfold paymentIn
  split_ifs
  · rw [Int.tdiv_eq_ediv_of_nonneg hvalue]
    exact Int.ediv_le_self 5 hvalue
  · exact hvalue
  · exact fractions_amount_le hvalue (share_le_hundred nHeight _)
  · exact hvalue

/-- More masternodes are not paid more, nor is anything less than nothing or more than the value of
the block. -/
theorem seesaw_antitone (nHeight : ℤ) {blockValue : CAmount} (hvalue : 0 ≤ blockValue) {n₁ n₂ : ℤ}
    (hpos : 0 < n₁) (hle : n₁ ≤ n₂) (hcollateral : 0 ≤ node.nMasternodeCollateralAmt)
    (hfits : n₂ * node.nMasternodeCollateralAmt * coin < 2 ^ 63) :
    0 ≤ paymentIn fractions node tip nHeight blockValue n₂ ∧
      paymentIn fractions node tip nHeight blockValue n₂ ≤
        paymentIn fractions node tip nHeight blockValue n₁ ∧
      paymentIn fractions node tip nHeight blockValue n₁ ≤ blockValue := by
  obtain ⟨hcoins, hmono, hzero⟩ := mNodeCoins_mono hpos hle hcollateral hfits
  exact ⟨paymentIn_nonneg monotone_fractions nHeight hvalue n₂,
    paymentIn_antitone monotone_fractions nHeight hvalue hcoins hmono hzero,
    paymentIn_fractions_le nHeight hvalue n₁⟩

theorem seesaw_antitone_listed :
    0 ≤ paymentIn fractions (listedNode (plainChain 0) 30 0) (plainChain 0) 200001 (9 * coin) 50 ∧
      paymentIn fractions (listedNode (plainChain 0) 30 0) (plainChain 0) 200001 (9 * coin) 50 ≤
        paymentIn fractions (listedNode (plainChain 0) 30 0) (plainChain 0) 200001 (9 * coin) 30 ∧
      paymentIn fractions (listedNode (plainChain 0) 30 0) (plainChain 0) 200001 (9 * coin) 30 ≤
        9 * coin :=
  seesaw_antitone 200001 (by decide) (by decide) (by decide) (by decide) (by decide)

/-- In doubles more masternodes are not paid more either. -/
theorem getMasternodePayment_antitone (nHeight : ℤ) {blockValue : CAmount}
    (hvalue : 0 ≤ blockValue) {n₁ n₂ : ℤ} (hpos : 0 < n₁) (hle : n₁ ≤ n₂)
    (hcollateral : 0 ≤ node.nMasternodeCollateralAmt)
    (hfits : n₂ * node.nMasternodeCollateralAmt * coin < 2 ^ 63) :
    0 ≤ getMasternodePayment node tip nHeight blockValue n₂ ∧
      getMasternodePayment node tip nHeight blockValue n₂ ≤
        getMasternodePayment node tip nHeight blockValue n₁ := by
  obtain ⟨hcoins, hmono, hzero⟩ := mNodeCoins_mono hpos hle hcollateral hfits
  rw [← paymentIn_doubles, ← paymentIn_doubles]
  exact ⟨paymentIn_nonneg monotone_doubles nHeight hvalue n₂,
    paymentIn_antitone monotone_doubles nHeight hvalue hcoins hmono hzero⟩

theorem getMasternodePayment_antitone_listed :
    0 ≤ getMasternodePayment (listedNode (plainChain 0) 30 0) (plainChain 0) 200001 (9 * coin) 50 ∧
      getMasternodePayment (listedNode (plainChain 0) 30 0) (plainChain 0) 200001 (9 * coin) 50 ≤
        getMasternodePayment (listedNode (plainChain 0) 30 0) (plainChain 0) 200001 (9 * coin)
          30 :=
  getMasternodePayment_antitone 200001 (by decide) (by decide) (by decide) (by decide) (by decide)

end Scrypta.Payees
