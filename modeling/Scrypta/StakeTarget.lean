import Scrypta.BaseUint
import Scrypta.BlockValue

/-! The target of a stake kernel, the product of the weight of the coins and the target per coin.
The product is kept modulo the 256th power of two. -/

namespace Scrypta.Kernel

open Validation (mainMaxMoneyOut)

variable {bnTarget : Uint256} {nValueMax : CAmount}

theorem toNat_coinDayWeight {nValueIn : CAmount} (hpos : 0 ≤ nValueIn)
    (hmoney : nValueIn ≤ mainMaxMoneyOut) :
    ((BitVec.ofInt 64 nValueIn).setWidth 256 / 100 : Uint256).toNat = nValueIn.toNat / 100 := by
  have hmax : mainMaxMoneyOut = 5000000000000000 := rfl
  obtain ⟨n, rfl⟩ := Int.eq_ofNat_of_zero_le hpos
  rw [hmax] at hmoney
  have hn : n < 2 ^ 64 := by
    have hle : n ≤ 5000000000000000 := Int.ofNat_le.1 hmoney
    omega
  have hwide : n < 2 ^ 256 := hn.trans (by decide)
  rw [BitVec.toNat_udiv, BitVec.toNat_setWidth, BitVec.ofInt_natCast, BitVec.toNat_ofNat,
    Nat.mod_eq_of_lt hn, Nat.mod_eq_of_lt hwide, Int.toNat_natCast]
  rfl

/-- What is compared is the product by the words of `operator*=`. -/
theorem stakeTargetHit_eq_mulAssign (hashProofOfStake : Uint256) (nValueIn : CAmount) :
    stakeTargetHit hashProofOfStake nValueIn bnTarget = decide (hashProofOfStake <
      BaseUint.mulAssign ((BitVec.ofInt 64 nValueIn).setWidth 256 / 100) bnTarget) := by
  rw [BaseUint.mulAssign_eq]
  rfl

theorem stakeTargetHit_iff {nValueIn : CAmount} (hpos : 0 ≤ nValueIn)
    (hmoney : nValueIn ≤ mainMaxMoneyOut) (hashProofOfStake : Uint256) :
    stakeTargetHit hashProofOfStake nValueIn bnTarget = true ↔
      hashProofOfStake.toNat < nValueIn.toNat / 100 * bnTarget.toNat % 2 ^ 256 := by
  unfold stakeTargetHit
  rw [decide_eq_true_iff, BitVec.lt_def, BitVec.toNat_mul, toNat_coinDayWeight hpos hmoney]

/-- Amounts are compared with the target as if the product had no bound. -/
def HitsExactly (bnTarget : Uint256) (nValueMax : CAmount) : Prop :=
  ∀ (hashProofOfStake : Uint256) (nValueIn : CAmount), 0 ≤ nValueIn → nValueIn ≤ nValueMax →
    (stakeTargetHit hashProofOfStake nValueIn bnTarget = true ↔
      (hashProofOfStake.toNat : ℤ) < nValueIn / 100 * bnTarget.toNat)

/-- A kernel is not lost with more coins. -/
def KeepsKernels (bnTarget : Uint256) (nValueMax : CAmount) : Prop :=
  ∀ (hashProofOfStake : Uint256) (v₁ v₂ : CAmount), 0 ≤ v₁ → v₁ ≤ v₂ → v₂ ≤ nValueMax →
    stakeTargetHit hashProofOfStake v₁ bnTarget = true →
    stakeTargetHit hashProofOfStake v₂ bnTarget = true

theorem lt_weight_mul_iff {nValueIn : CAmount} (hpos : 0 ≤ nValueIn) (h t : ℕ) :
    (h : ℤ) < nValueIn / 100 * t ↔ h < nValueIn.toNat / 100 * t := by
  obtain ⟨n, rfl⟩ := Int.eq_ofNat_of_zero_le hpos
  rw [Int.toNat_natCast]
  exact_mod_cast Iff.rfl

theorem weight_mul_le {v₁ v₂ : CAmount} (h : v₁ ≤ v₂) (t : ℕ) :
    v₁.toNat / 100 * t ≤ v₂.toNat / 100 * t :=
  Nat.mul_le_mul_right t (Nat.div_le_div_right (Int.toNat_le_toNat h))

theorem hitsExactly_of_fits (hmoney : nValueMax ≤ mainMaxMoneyOut)
    (hfits : nValueMax.toNat / 100 * bnTarget.toNat < 2 ^ 256) :
    HitsExactly bnTarget nValueMax := by
  intro h v hpos hle
  have hlt := (weight_mul_le hle bnTarget.toNat).trans_lt hfits
  rw [stakeTargetHit_iff hpos (hle.trans hmoney), Nat.mod_eq_of_lt hlt, lt_weight_mul_iff hpos]

theorem HitsExactly.keepsKernels (h : HitsExactly bnTarget nValueMax) :
    KeepsKernels bnTarget nValueMax := by
  intro hashProofOfStake v₁ v₂ hpos hle hmax hhit
  have hpos₂ := hpos.trans hle
  have hlt := (lt_weight_mul_iff hpos _ _).1 ((h _ v₁ hpos (hle.trans hmax)).1 hhit)
  exact (h _ v₂ hpos₂ hmax).2
    ((lt_weight_mul_iff hpos₂ _ _).2 (hlt.trans_le (weight_mul_le hle bnTarget.toNat)))

/-- Above the largest product the weight that wraps first loses a kernel of the weight below. -/
theorem not_keepsKernels (hT : 0 < bnTarget.toNat) (hmoney : nValueMax ≤ mainMaxMoneyOut)
    (hover : 2 ^ 256 ≤ nValueMax.toNat / 100 * bnTarget.toNat) :
    ¬KeepsKernels bnTarget nValueMax := by
  intro hkeeps
  have hlt := bnTarget.isLt
  generalize hN : 2 ^ 256 = N at hover hlt
  have hNpos : 0 < N := hlt.trans_le' (Nat.zero_le _)
  -- the last weight whose product fits
  obtain ⟨k, hk⟩ : ∃ k, k = (N - 1) / bnTarget.toNat := ⟨_, rfl⟩
  have hfits : k * bnTarget.toNat < N := by
    have hle := Nat.div_mul_le_self (N - 1) bnTarget.toNat
    rw [← hk] at hle
    omega
  have hnext : N ≤ (k + 1) * bnTarget.toNat := by
    have hlt' := Nat.lt_mul_div_succ (N - 1) hT
    rw [← hk] at hlt'
    rw [Nat.mul_comm]
    omega
  have hsucc : (k + 1) * bnTarget.toNat = k * bnTarget.toNat + bnTarget.toNat :=
    Nat.succ_mul k bnTarget.toNat
  have hkmax : k + 1 ≤ nValueMax.toNat / 100 := by
    by_contra hless
    have hle : nValueMax.toNat / 100 * bnTarget.toNat ≤ k * bnTarget.toNat :=
      Nat.mul_le_mul_right _ (by omega)
    omega
  obtain ⟨v₁, hv₁⟩ : ∃ v : ℤ, v = 100 * k := ⟨_, rfl⟩
  obtain ⟨v₂, hv₂⟩ : ∃ v : ℤ, v = 100 * (k + 1) := ⟨_, rfl⟩
  have hpos₁ : 0 ≤ v₁ := by omega
  have hle : v₁ ≤ v₂ := by omega
  have hmax : v₂ ≤ nValueMax := by omega
  have hhash : (BitVec.ofNat 256 ((k + 1) * bnTarget.toNat - N)).toNat =
      (k + 1) * bnTarget.toNat - N := by
    rw [BitVec.toNat_ofNat, hN]
    exact Nat.mod_eq_of_lt (by omega)
  have hdiv₁ : v₁.toNat / 100 = k := by omega
  have hdiv₂ : v₂.toNat / 100 = k + 1 := by omega
  have hwrap : (k + 1) * bnTarget.toNat % N = (k + 1) * bnTarget.toNat - N := by
    rw [Nat.mod_eq_sub_mod hnext, Nat.mod_eq_of_lt (by omega)]
  have hhit := hkeeps (BitVec.ofNat 256 ((k + 1) * bnTarget.toNat - N)) v₁ v₂ hpos₁ hle hmax
  rw [stakeTargetHit_iff hpos₁ (hle.trans (hmax.trans hmoney)),
    stakeTargetHit_iff (hpos₁.trans hle) (hmax.trans hmoney), hhash, hdiv₁, hdiv₂, hN,
    Nat.mod_eq_of_lt hfits, hwrap] at hhit
  exact absurd (hhit (by omega)) (Nat.lt_irrefl _)

/-- Up to an amount the product is exact, and no kernel is lost, as long as it fits. -/
theorem stakeTargetHit_exact_iff_fits {nBits : BitVec 32} (hpos : 0 < setCompact nBits)
    {nValueMax : CAmount} (hmin : 0 ≤ nValueMax) (hmoney : nValueMax ≤ mainMaxMoneyOut) :
    (HitsExactly (setCompact nBits) nValueMax ↔
      nValueMax / 100 * (setCompact nBits).toNat < 2 ^ 256) ∧
    (KeepsKernels (setCompact nBits) nValueMax ↔
      nValueMax / 100 * (setCompact nBits).toNat < 2 ^ 256) := by
  have hT : 0 < (setCompact nBits).toNat := hpos
  have hcast : nValueMax / 100 * ((setCompact nBits).toNat : ℤ) < 2 ^ 256 ↔
      nValueMax.toNat / 100 * (setCompact nBits).toNat < 2 ^ 256 := by
    obtain ⟨n, rfl⟩ := Int.eq_ofNat_of_zero_le hmin
    rw [Int.toNat_natCast]
    exact_mod_cast Iff.rfl
  have hkeeps : KeepsKernels (setCompact nBits) nValueMax →
      nValueMax.toNat / 100 * (setCompact nBits).toNat < 2 ^ 256 := by
    intro h
    by_contra hover
    exact not_keepsKernels hT hmoney (not_lt.1 hover) h
  rw [hcast]
  exact ⟨⟨fun h => hkeeps h.keepsKernels, hitsExactly_of_fits hmoney⟩,
    ⟨hkeeps, fun h => (hitsExactly_of_fits hmoney h).keepsKernels⟩⟩

/-- At the highest target the product fits up to 16.777472 coins. -/
theorem stakeTargetHit_exact_iff_fits_limit :
    HitsExactly (setCompact 0x1e00ffff) 1677747200 ∧
      ¬KeepsKernels (setCompact 0x1e00ffff) 1677747300 :=
  have hpos : 0 < setCompact 0x1e00ffff := by decide
  ⟨(stakeTargetHit_exact_iff_fits hpos (by decide) (by decide)).1.2 (by decide),
    fun h => absurd ((stakeTargetHit_exact_iff_fits hpos (by decide) (by decide)).2.1 h)
      (by decide)⟩

/-- One hundred base units more lose a kernel at the highest target. -/
theorem more_coins_lose_kernel :
    0 < setCompact 0x1e00ffff ∧ setCompact 0x1e00ffff ≤ (~~~0 : Uint256) >>> 24 ∧
      stakeTargetHit (BitVec.ofNat 256 (65279 * 2 ^ 216)) 1677747200
        (setCompact 0x1e00ffff) = true ∧
      stakeTargetHit (BitVec.ofNat 256 (65279 * 2 ^ 216)) 1677747300
        (setCompact 0x1e00ffff) = false := by
  decide

end Scrypta.Kernel
