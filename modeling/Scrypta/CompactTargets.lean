import Mathlib.Data.Rat.Cast.Order
import Mathlib.Order.Bounds.Basic
import Scrypta.BlockIndexRules
import Scrypta.StakeRetarget

/-! Targets in compact form, and the work that they stand for. -/

namespace Scrypta.ProofOfWork

open BaseUint

/-! The code, with the loops of the shifts and of the quotient. -/

def setCompactByWords (nCompact : BitVec 32) : Uint256 :=
  let nSize := (nCompact >>> 24).toNat
  let nWord := (compactWord nCompact).setWidth 256
  if nSize ≤ 3 then nWord else shlAssign nWord (8 * (nSize - 3))

/-- `GetCompact`; there is no result where an assertion fails. -/
def getCompactChecked (x : Uint256) (fNegative : Bool) : Option (BitVec 32) :=
  let nSize := (bitsByWords x + 7) / 8
  let nCompact : BitVec 32 :=
    if nSize ≤ 3 then (x.setWidth 64 <<< (8 * (3 - nSize))).setWidth 32
    else ((shrAssign x (8 * (nSize - 3))).setWidth 64).setWidth 32
  let carry : Bool := nCompact &&& 0x00800000 != 0
  let nCompact := if carry then nCompact >>> 8 else nCompact
  let nSize := if carry then nSize + 1 else nSize
  if nCompact &&& ~~~0x007fffff ≠ 0 ∨ 256 ≤ nSize then none
  else
    let nCompact := nCompact ||| (BitVec.ofNat 32 nSize <<< 24)
    some (nCompact ||| if fNegative && nCompact &&& 0x007fffff != 0 then 0x00800000 else 0)

/-- `GetBlockProof` -/
def getBlockProofByWords (nBits : BitVec 32) : Option Uint256 :=
  let bnTarget := setCompactByWords nBits
  if compactNegative nBits || compactOverflow nBits || bnTarget == 0 then some 0
  else (divAssign (~~~bnTarget) (bnTarget + 1)).map (· + 1)

/-- `GetBlockTrust` of a proof-of-stake block -/
def getStakeTrustByWords (nBits : BitVec 32) : Option Uint256 :=
  let bnTarget := setCompactByWords nBits
  if bnTarget = 0 then some 0 else divAssign (shlAssign 1 256) (bnTarget + 1)

theorem setCompactByWords_eq (nCompact : BitVec 32) :
    setCompactByWords nCompact = setCompact nCompact := by
  unfold setCompactByWords setCompact
  simp only [shlAssign_eq]

/-! What a compact form stands for. -/

section Value

variable {w : BitVec 32}

def compactSize (w : BitVec 32) : ℕ := w.toNat / 2 ^ 24

def compactMantissa (w : BitVec 32) : ℕ := w.toNat % 2 ^ 23

/-- The number that is meant, which may have a fraction or be too large. -/
def compactExact (w : BitVec 32) : ℚ := compactMantissa w * 256 ^ ((compactSize w : ℤ) - 3)

theorem compactMantissa_lt (w : BitVec 32) : compactMantissa w < 2 ^ 23 :=
  Nat.mod_lt _ (by decide)

theorem toNat_size (w : BitVec 32) : (w >>> 24).toNat = compactSize w := by
  rw [BitVec.toNat_ushiftRight, Nat.shiftRight_eq_div_pow, compactSize]

theorem toNat_mantissa (w : BitVec 32) : (w &&& 0x007fffff).toNat = compactMantissa w := by
  rw [BitVec.toNat_and]
  exact Nat.and_two_pow_sub_one_eq_mod w.toNat 23

theorem toNat_compactWord (w : BitVec 32) : (compactWord w).toNat =
    if compactSize w ≤ 3 then compactMantissa w / 256 ^ (3 - compactSize w)
    else compactMantissa w := by
  unfold compactWord
  rw [toNat_size]
  dsimp only
  split
  · rw [BitVec.toNat_ushiftRight, Nat.shiftRight_eq_div_pow, toNat_mantissa, pow_256]
  · exact toNat_mantissa w

theorem pow_256_three_sub {k : ℕ} (h : k ≤ 3) : 256 ^ (3 - k) * 256 ^ k = 256 ^ 3 := by
  rw [← Nat.pow_add, Nat.sub_add_cancel h]

theorem pow_256_sub_three {k : ℕ} (h : 3 ≤ k) : 256 ^ (k - 3) * 256 ^ 3 = 256 ^ k := by
  rw [← Nat.pow_add, Nat.sub_add_cancel h]

theorem toNat_setCompact (w : BitVec 32) : (setCompact w).toNat =
    compactMantissa w * 256 ^ compactSize w / 256 ^ 3 % 2 ^ 256 := by
  have hlt := compactMantissa_lt w
  have hbig : 2 ^ 23 < 2 ^ 256 := by decide
  have hword := toNat_compactWord w
  unfold setCompact
  rw [toNat_size]
  dsimp only
  by_cases hsmall : compactSize w ≤ 3
  · have hdiv : compactMantissa w * 256 ^ compactSize w / 256 ^ 3 =
        compactMantissa w / 256 ^ (3 - compactSize w) := by
      rw [← pow_256_three_sub hsmall, Nat.mul_div_mul_right _ _ (Nat.pow_pos (by decide))]
    rw [if_pos hsmall] at hword
    rw [if_pos hsmall, BitVec.toNat_setWidth, hword, hdiv]
  · have hdiv : compactMantissa w * 256 ^ compactSize w / 256 ^ 3 =
        compactMantissa w * 256 ^ (compactSize w - 3) := by
      rw [← pow_256_sub_three (by omega), ← Nat.mul_assoc, Nat.mul_div_cancel _ (by decide)]
    rw [if_neg hsmall] at hword
    rw [if_neg hsmall, BitVec.toNat_shiftLeft, BitVec.toNat_setWidth, hword, Nat.shiftLeft_eq,
      ← pow_256, hdiv, Nat.mod_eq_of_lt (hlt.trans hbig)]

theorem compactOverflow_iff (w : BitVec 32) : compactOverflow w = true ↔
    (compactWord w).toNat ≠ 0 ∧ (34 < compactSize w ∨
      (0xff < (compactWord w).toNat ∧ 33 < compactSize w) ∨
        (0xffff < (compactWord w).toNat ∧ 32 < compactSize w)) := by
  have hne : compactWord w ≠ 0 ↔ (compactWord w).toNat ≠ 0 := not_congr BitVec.toNat_inj.symm
  unfold compactOverflow
  rw [toNat_size]
  simp only [Bool.and_eq_true, Bool.or_eq_true, bne_iff_ne, decide_eq_true_eq, BitVec.lt_def, hne,
    or_assoc]
  rfl

/-- The flag for an overflow is set exactly when the number does not fit. -/
theorem compactOverflow_iff_le (w : BitVec 32) : compactOverflow w = true ↔
    2 ^ 256 * 256 ^ 3 ≤ compactMantissa w * 256 ^ compactSize w := by
  have hm := compactMantissa_lt w
  have hfits : 2 ^ 256 * 256 ^ 3 = 2 ^ 24 * 256 ^ 32 := by decide
  rw [compactOverflow_iff, toNat_compactWord, hfits]
  generalize compactMantissa w = m at hm ⊢
  generalize compactSize w = k
  rcases Nat.lt_or_ge 32 k with hlarge | hsmall
  · obtain ⟨d, rfl⟩ : ∃ d, k = 32 + (d + 1) := ⟨k - 33, by omega⟩
    have hcancel : 2 ^ 24 * 256 ^ 32 ≤ m * 256 ^ (32 + (d + 1)) ↔ 2 ^ 24 ≤ m * 256 ^ (d + 1) := by
      rw [Nat.pow_add, Nat.mul_comm (256 ^ 32), ← Nat.mul_assoc]
      exact Nat.mul_le_mul_right_iff (Nat.pow_pos (by decide))
    rw [hcancel, if_neg (by omega)]
    rcases Nat.lt_or_ge d 2 with hd | hd
    · obtain rfl | rfl : d = 0 ∨ d = 1 := by omega
      · omega
      · omega
    · obtain ⟨e, rfl⟩ : ∃ e, d = e + 2 := ⟨d - 2, by omega⟩
      have hpos : 0 < 256 ^ e := Nat.pow_pos (by decide)
      have hcube : 2 ^ 24 = 256 ^ 3 := by decide
      have hpow : m * 256 ^ (e + 3) = m * 256 ^ e * 2 ^ 24 := by
        rw [Nat.pow_add, ← Nat.mul_assoc, hcube]
      rw [hpow]
      rcases Nat.eq_zero_or_pos m with rfl | hmpos
      · simp
      · have hone : 1 ≤ m * 256 ^ e := Nat.mul_pos hmpos hpos
        refine iff_of_true ⟨by omega, Or.inl (by omega)⟩ ?_
        omega
  · refine iff_of_false (fun h => by omega) (Nat.not_le_of_lt ?_)
    calc m * 256 ^ k < 2 ^ 24 * 256 ^ k :=
          Nat.mul_lt_mul_of_pos_right (by omega) (Nat.pow_pos (by decide))
      _ ≤ 2 ^ 24 * 256 ^ 32 := Nat.mul_le_mul_left _ (Nat.pow_le_pow_right (by decide) hsmall)

theorem lt_of_not_compactOverflow (h : compactOverflow w = false) :
    compactMantissa w * 256 ^ compactSize w < 2 ^ 256 * 256 ^ 3 := by
  by_contra hge
  rw [(compactOverflow_iff_le w).2 (not_lt.1 hge)] at h
  cases h

theorem toNat_setCompact_of_fits (h : compactOverflow w = false) :
    (setCompact w).toNat = compactMantissa w * 256 ^ compactSize w / 256 ^ 3 := by
  have hfits := lt_of_not_compactOverflow h
  rw [toNat_setCompact, Nat.mod_eq_of_lt ((Nat.div_lt_iff_lt_mul (by decide)).2 hfits)]

theorem compactExact_eq (w : BitVec 32) : compactExact w =
    (compactMantissa w * 256 ^ compactSize w : ℕ) / 256 ^ 3 := by
  rw [compactExact, zpow_sub₀ (by norm_num), zpow_natCast, mul_div_assoc']
  push_cast
  rfl

theorem compactOverflow_iff_exact (w : BitVec 32) :
    compactOverflow w = true ↔ 2 ^ 256 ≤ compactExact w := by
  rw [compactOverflow_iff_le, compactExact_eq, le_div_iff₀ (by norm_num)]
  norm_cast

end Value

/-! The form of a number. -/

section Form

variable {x : Uint256} {w : BitVec 32}

/-- The number is a mantissa followed by bytes that are zero. -/
def FitsMantissa (y : ℕ) : Prop := ∃ m < 2 ^ 23, ∃ k, y = m * 256 ^ k

/-- A form without a sign, with a mantissa that fills more than one of its bytes, and with no
fraction; or zero. -/
def Canonical (w : BitVec 32) : Prop :=
  w = 0 ∨ w.toNat % 2 ^ 24 < 2 ^ 23 ∧ 2 ^ 15 ≤ compactMantissa w ∧
    256 ^ 3 ∣ compactMantissa w * 256 ^ compactSize w

theorem fitsMantissa_div {m : ℕ} (hm : m < 2 ^ 23) (k : ℕ) :
    FitsMantissa (m * 256 ^ k / 256 ^ 3) := by
  by_cases hk : k ≤ 3
  · refine ⟨m / 256 ^ (3 - k), (Nat.div_le_self _ _).trans_lt hm, 0, ?_⟩
    rw [← pow_256_three_sub hk, Nat.mul_div_mul_right _ _ (Nat.pow_pos (by decide)), Nat.pow_zero,
      Nat.mul_one]
  · refine ⟨m, hm, k - 3, ?_⟩
    rw [← pow_256_sub_three (by omega), ← Nat.mul_assoc, Nat.mul_div_cancel _ (by decide)]

/-- A byte more outweighs the mantissa. -/
theorem mul_pow_le_of_lt {a m j k : ℕ} (ha : a ≤ 2 ^ 23) (hm : 2 ^ 15 ≤ m) (h : j < k) :
    a * 256 ^ j ≤ m * 256 ^ k := by
  have hshift : 2 ^ 23 * 256 ^ j = 2 ^ 15 * 256 ^ (j + 1) := by
    rw [Nat.pow_succ 256 j]
    omega
  calc a * 256 ^ j ≤ 2 ^ 23 * 256 ^ j := Nat.mul_le_mul_right _ ha
    _ = 2 ^ 15 * 256 ^ (j + 1) := hshift
    _ ≤ 2 ^ 15 * 256 ^ k := Nat.mul_le_mul_left _ (Nat.pow_le_pow_right (by decide) h)
    _ ≤ m * 256 ^ k := Nat.mul_le_mul_right _ hm

/-- Where a mantissa of at least two bytes is the highest bytes of a number, there is no number of
this form in between. -/
theorem le_of_fitsMantissa {n m k : ℕ} (hmin : 2 ^ 15 ≤ m) (hlow : m * 256 ^ k ≤ n * 256 ^ 3)
    (hhigh : n * 256 ^ 3 < (m + 1) * 256 ^ k) {y : ℕ} (hy : FitsMantissa y) (hle : y ≤ n) :
    y ≤ m * 256 ^ k / 256 ^ 3 := by
  obtain ⟨a, ha, j, rfl⟩ := hy
  by_cases hk : k ≤ 3
  · have hpos : 0 < 256 ^ k := Nat.pow_pos (by decide)
    have hunit : 0 < 256 ^ (3 - k) := Nat.pow_pos (by decide)
    rw [← pow_256_three_sub hk, ← Nat.mul_assoc] at hlow hhigh
    have hge : m ≤ n * 256 ^ (3 - k) := Nat.le_of_mul_le_mul_right hlow hpos
    have hlt : n * 256 ^ (3 - k) < m + 1 := Nat.lt_of_mul_lt_mul_right hhigh
    have hm : m = n * 256 ^ (3 - k) := by omega
    rw [← pow_256_three_sub hk, Nat.mul_div_mul_right _ _ hpos, hm, Nat.mul_div_cancel _ hunit]
    exact hle
  · have hcube : 0 < 256 ^ 3 := by decide
    have hthree : 3 ≤ k := by omega
    rw [← pow_256_sub_three hthree, ← Nat.mul_assoc] at hlow hhigh
    have hbelow : n < (m + 1) * 256 ^ (k - 3) := Nat.lt_of_mul_lt_mul_right hhigh
    rw [← pow_256_sub_three hthree, ← Nat.mul_assoc, Nat.mul_div_cancel _ hcube]
    by_cases hj : k - 3 ≤ j
    · have hsplit : a * 256 ^ j = a * 256 ^ (j - (k - 3)) * 256 ^ (k - 3) := by
        rw [Nat.mul_assoc, ← Nat.pow_add, Nat.sub_add_cancel hj]
      rw [hsplit] at hle ⊢
      have hlt := Nat.lt_of_mul_lt_mul_right (hle.trans_lt hbelow)
      exact Nat.mul_le_mul_right _ (by omega)
    · exact mul_pow_le_of_lt ha.le hmin (by omega)

/-- The form of a number that is not 0: its size, its mantissa, and no sign. -/
theorem form_getCompact (h : x ≠ 0) : (getCompact x).toNat % 2 ^ 24 < 2 ^ 23 ∧
    2 ^ 15 ≤ compactMantissa (getCompact x) ∧
    compactMantissa (getCompact x) * 256 ^ compactSize (getCompact x) ≤ x.toNat * 256 ^ 3 ∧
    x.toNat * 256 ^ 3 <
      (compactMantissa (getCompact x) + 1) * 256 ^ compactSize (getCompact x) := by
  obtain ⟨nSize, nWord, hmin, hlt, hcompact, hlow, hhigh⟩ := getCompact_spec h
  have hsize : compactSize (getCompact x) = nSize := by
    rw [compactSize, hcompact]
    omega
  have hword : compactMantissa (getCompact x) = nWord := by
    rw [compactMantissa, hcompact]
    omega
  rw [hsize, hword]
  exact ⟨by omega, hmin, hlow, hhigh⟩

theorem toNat_setCompact_getCompact (h : x ≠ 0) : (setCompact (getCompact x)).toNat =
    compactMantissa (getCompact x) * 256 ^ compactSize (getCompact x) / 256 ^ 3 := by
  obtain ⟨-, -, hlow, -⟩ := form_getCompact h
  have hle := Nat.div_le_of_le_mul (Nat.mul_comm _ (256 ^ 3) ▸ hlow)
  rw [toNat_setCompact, Nat.mod_eq_of_lt (hle.trans_lt x.isLt)]

/-- Packed and unpacked, a number keeps its leading bytes. -/
theorem isGreatest_setCompact_getCompact (x : Uint256) :
    IsGreatest {y | FitsMantissa y ∧ y ≤ x.toNat} (setCompact (getCompact x)).toNat := by
  by_cases h : x = 0
  · subst h
    exact ⟨⟨⟨0, by decide, 0, rfl⟩, Nat.zero_le _⟩, fun y hy => hy.2⟩
  · obtain ⟨-, hmin, hlow, hhigh⟩ := form_getCompact h
    rw [toNat_setCompact_getCompact h]
    exact ⟨⟨fitsMantissa_div (compactMantissa_lt _) _,
        Nat.div_le_of_le_mul (Nat.mul_comm _ (256 ^ 3) ▸ hlow)⟩,
      fun y hy => le_of_fitsMantissa hmin hlow hhigh hy.1 hy.2⟩

theorem setCompact_getCompact (h : FitsMantissa x.toNat) : setCompact (getCompact x) = x :=
  BitVec.eq_of_toNat_eq (le_antisymm (isGreatest_setCompact_getCompact x).1.2
    ((isGreatest_setCompact_getCompact x).2 ⟨h, le_refl _⟩))

theorem toNat_eq_form (hsign : w.toNat % 2 ^ 24 < 2 ^ 23) :
    w.toNat = compactSize w * 2 ^ 24 + compactMantissa w := by
  unfold compactSize compactMantissa
  omega

theorem getCompact_zero : getCompact 0 = 0 := by decide

theorem canonical_getCompact (x : Uint256) : Canonical (getCompact x) := by
  by_cases h : x = 0
  · subst h
    exact Or.inl getCompact_zero
  · obtain ⟨hsign, hmin, hlow, hhigh⟩ := form_getCompact h
    refine Or.inr ⟨hsign, hmin, ?_⟩
    by_cases hk : compactSize (getCompact x) ≤ 3
    · -- the fraction that is left out is less than one, so there is none
      have hpos : 0 < 256 ^ compactSize (getCompact x) := Nat.pow_pos (by decide)
      rw [← pow_256_three_sub hk, ← Nat.mul_assoc] at hlow hhigh
      have hge := Nat.le_of_mul_le_mul_right hlow hpos
      have hlt := Nat.lt_of_mul_lt_mul_right hhigh
      have hexact : compactMantissa (getCompact x) =
          x.toNat * 256 ^ (3 - compactSize (getCompact x)) := by
        omega
      rw [hexact, Nat.mul_assoc, pow_256_three_sub hk]
      exact Nat.dvd_mul_left _ _
    · rw [← pow_256_sub_three (show 3 ≤ compactSize (getCompact x) by omega), ← Nat.mul_assoc]
      exact Nat.dvd_mul_left _ _

theorem not_compactOverflow_getCompact (x : Uint256) : compactOverflow (getCompact x) = false := by
  by_cases h : x = 0
  · subst h
    rw [getCompact_zero]
    rfl
  · obtain ⟨-, -, hlow, -⟩ := form_getCompact h
    have hlt : x.toNat * 256 ^ 3 < 2 ^ 256 * 256 ^ 3 :=
      Nat.mul_lt_mul_of_pos_right x.isLt (by decide)
    rw [Bool.eq_false_iff]
    exact fun hover => absurd ((compactOverflow_iff_le _).1 hover) (by omega)

theorem not_compactNegative (hsign : w.toNat % 2 ^ 24 < 2 ^ 23) : compactNegative w = false := by
  have hbit : w &&& 0x00800000 = 0 := by
    by_contra hne
    exact absurd ((signBit_iff_mod w).1 hne) (by omega)
  rw [compactNegative, hbit]
  simp

theorem Canonical.not_negative (h : Canonical w) : compactNegative w = false := by
  rcases h with rfl | ⟨hsign, -, -⟩
  · rfl
  · exact not_compactNegative hsign

/-- A canonical form is the one that its number is packed into. -/
theorem Canonical.getCompact_setCompact (h : Canonical w) (hover : compactOverflow w = false) :
    getCompact (setCompact w) = w := by
  rcases h with rfl | ⟨hsign, hmin, hdvd⟩
  · decide
  · have hvalue : (setCompact w).toNat * 256 ^ 3 = compactMantissa w * 256 ^ compactSize w := by
      rw [toNat_setCompact_of_fits hover, Nat.div_mul_cancel hdvd]
    have hne : setCompact w ≠ 0 := by
      intro h0
      have hpos : 0 < compactMantissa w * 256 ^ compactSize w :=
        Nat.mul_pos (by omega) (Nat.pow_pos (by decide))
      rw [← hvalue, h0] at hpos
      exact absurd hpos (by decide)
    obtain ⟨hsign', hmin', hlow, hhigh⟩ := form_getCompact hne
    have hlt := compactMantissa_lt w
    have hlt' := compactMantissa_lt (getCompact (setCompact w))
    rw [hvalue] at hlow hhigh
    have hle : compactSize w ≤ compactSize (getCompact (setCompact w)) := by
      by_contra hgt
      exact absurd (mul_pow_le_of_lt hlt' hmin (not_le.1 hgt)) (not_le.2 hhigh)
    have hge : compactSize (getCompact (setCompact w)) ≤ compactSize w := by
      by_contra hgt
      have hstep : compactMantissa w * 256 ^ compactSize w <
          (compactMantissa w + 1) * 256 ^ compactSize w :=
        Nat.mul_lt_mul_of_pos_right (Nat.lt_succ_self _) (Nat.pow_pos (by decide))
      exact absurd (mul_pow_le_of_lt hlt hmin' (not_le.1 hgt)) (not_le.2 (hlow.trans_lt hstep))
    have hsize := le_antisymm hge hle
    rw [hsize] at hlow hhigh
    have hpos : 0 < 256 ^ compactSize w := Nat.pow_pos (by decide)
    have hword : compactMantissa (getCompact (setCompact w)) = compactMantissa w :=
      le_antisymm (Nat.le_of_mul_le_mul_right hlow hpos)
        (Nat.lt_succ_iff.1 (Nat.lt_of_mul_lt_mul_right hhigh))
    apply BitVec.eq_of_toNat_eq
    rw [toNat_eq_form hsign', hsize, hword, ← toNat_eq_form hsign]

/-- No assertion fails on a mantissa of 23 bits. -/
theorem and_not_mantissa {word : BitVec 32} (h : word.toNat < 2 ^ 23) :
    word &&& ~~~0x007fffff = 0 := by
  have hmask : (~~~0x007fffff : BitVec 32) = BitVec.allOnes 32 <<< 23 := by decide
  refine BitVec.eq_of_getLsbD_eq fun i hi => ?_
  rw [hmask, BitVec.getLsbD_and, BitVec.getLsbD_shiftLeft]
  by_cases hlow : i < 23
  · simp [hlow]
  · have hbit : word.getLsbD i = false :=
      Nat.testBit_lt_two_pow (h.trans_le (Nat.pow_le_pow_right (by decide) (not_lt.1 hlow)))
    simp [hbit]

theorem getCompactChecked_eq_topWord (x : Uint256) (fNegative : Bool) :
    getCompactChecked x fNegative =
      let carry : Bool := topWord x &&& 0x00800000 != 0
      let nCompact := if carry then topWord x >>> 8 else topWord x
      let nSize := if carry then byteSize x + 1 else byteSize x
      if nCompact &&& ~~~0x007fffff ≠ 0 ∨ 256 ≤ nSize then none
      else
        let nCompact := nCompact ||| (BitVec.ofNat 32 nSize <<< 24)
        some (nCompact |||
          if fNegative && nCompact &&& 0x007fffff != 0 then 0x00800000 else 0) := by
  unfold getCompactChecked
  simp only [bitsByWords_eq, shrAssign_eq,
    BitVec.setWidth_setWidth_of_le _ (show 32 ≤ 64 by decide)]
  rfl

/-- Neither assertion fails, whatever the sign. -/
theorem getCompactChecked_eq (x : Uint256) (fNegative : Bool) :
    getCompactChecked x fNegative = some (getCompact x |||
      if fNegative && getCompact x &&& 0x007fffff != 0 then 0x00800000 else 0) := by
  have hword := topWord_lt x
  have hsize := byteSize_le x
  rw [getCompactChecked_eq_topWord, getCompact_eq_topWord]
  dsimp only
  by_cases hcarry : topWord x &&& 0x00800000 ≠ 0
  · have hshift : (topWord x >>> 8).toNat < 2 ^ 23 := by
      rw [BitVec.toNat_ushiftRight, Nat.shiftRight_eq_div_pow]
      omega
    have hfits : ¬(topWord x >>> 8 &&& ~~~0x007fffff ≠ 0 ∨ 256 ≤ byteSize x + 1) :=
      not_or.2 ⟨not_not.2 (and_not_mantissa hshift), by omega⟩
    have htrue := bne_iff_ne.2 hcarry
    rw [if_pos htrue, if_pos htrue, if_neg hfits, if_pos hcarry]
  · have hlow : (topWord x).toNat < 2 ^ 23 :=
      not_le.1 fun hge => hcarry ((signBit_iff hword).2 hge)
    have hfits : ¬(topWord x &&& ~~~0x007fffff ≠ 0 ∨ 256 ≤ byteSize x) :=
      not_or.2 ⟨not_not.2 (and_not_mantissa hlow), by omega⟩
    have hfalse : ¬(topWord x &&& 0x00800000 != 0) = true := fun h => hcarry (bne_iff_ne.1 h)
    rw [if_neg hfalse, if_neg hfalse, if_neg hfits, if_neg hcarry]

/-- One form has the same number as another, is canonical, and has no flag. -/
structure CanonicalForm (c w : BitVec 32) : Prop where
  canonical : Canonical c
  value : setCompact c = setCompact w
  not_negative : compactNegative c = false
  not_overflow : compactOverflow c = false

theorem compact_round_trip :
    (∀ x fNegative, (getCompactChecked x fNegative).isSome = true) ∧
    (∀ x, getCompactChecked x false = some (getCompact x) ∧
      IsGreatest {y | FitsMantissa y ∧ y ≤ x.toNat} (setCompactByWords (getCompact x)).toNat ∧
      (FitsMantissa x.toNat → setCompactByWords (getCompact x) = x)) ∧
    (∀ w, compactNegative w = false → compactOverflow w = false →
      CanonicalForm (getCompact (setCompactByWords w)) w ∧
      (Canonical w → getCompact (setCompactByWords w) = w)) ∧
    ∀ w, compactOverflow w = true ↔ 2 ^ 256 ≤ compactExact w := by
  refine ⟨fun x fNegative => ?_, fun x => ⟨?_, ?_, fun hfits => ?_⟩,
    fun w _ hover => ⟨?_, fun h => ?_⟩,
    compactOverflow_iff_exact⟩
  · rw [getCompactChecked_eq]
    rfl
  · rw [getCompactChecked_eq]
    exact congrArg some (BitVec.or_zero)
  · rw [setCompactByWords_eq]
    exact isGreatest_setCompact_getCompact x
  · rw [setCompactByWords_eq, setCompact_getCompact hfits]
  · rw [setCompactByWords_eq]
    have hfits : FitsMantissa (setCompact w).toNat := by
      rw [toNat_setCompact_of_fits hover]
      exact fitsMantissa_div (compactMantissa_lt w) _
    exact ⟨canonical_getCompact _, setCompact_getCompact hfits,
      (canonical_getCompact _).not_negative, not_compactOverflow_getCompact _⟩
  · rw [setCompactByWords_eq, h.getCompact_setCompact hover]

end Form

/-! The work of a block. -/

section Work

open BlockIndex (Entry)

variable {nBits : BitVec 32}

/-- The target is positive and has no flag. -/
structure SoundTarget (nBits : BitVec 32) : Prop where
  pos : 0 < setCompact nBits
  not_negative : compactNegative nBits = false
  not_overflow : compactOverflow nBits = false

theorem SoundTarget.ne_zero (h : SoundTarget nBits) : setCompact nBits ≠ 0 := by
  intro h0
  exact absurd (h0 ▸ h.pos) (by decide)

/-- The target and one more fit. -/
theorem SoundTarget.succ_lt (h : SoundTarget nBits) : (setCompact nBits).toNat + 1 < 2 ^ 256 := by
  have hlt := (setCompact nBits).isLt
  have hfits : FitsMantissa (setCompact nBits).toNat := by
    rw [toNat_setCompact_of_fits h.not_overflow]
    exact fitsMantissa_div (compactMantissa_lt nBits) _
  obtain ⟨m, hm, k, hvalue⟩ := hfits
  -- the largest number is odd, and not a mantissa
  have hne : (setCompact nBits).toNat ≠ 2 ^ 256 - 1 := by
    intro hmax
    rw [hmax] at hvalue
    cases k with
    | zero => omega
    | succ k =>
      rw [Nat.pow_succ 256 k, ← Nat.mul_assoc m] at hvalue
      omega
  omega

theorem SoundTarget.toNat_succ (h : SoundTarget nBits) :
    (setCompact nBits + 1).toNat = (setCompact nBits).toNat + 1 := by
  rw [BitVec.toNat_add]
  exact Nat.mod_eq_of_lt h.succ_lt

theorem SoundTarget.succ_ne_zero (h : SoundTarget nBits) : setCompact nBits + 1 ≠ 0 := by
  intro h0
  have hsucc := h.toNat_succ
  rw [h0] at hsucc
  cases hsucc

theorem SoundTarget.flags (h : SoundTarget nBits) :
    ¬(compactNegative nBits || compactOverflow nBits || setCompact nBits == 0) = true := by
  rw [h.not_negative, h.not_overflow, Bool.false_or, Bool.false_or, beq_iff_eq]
  exact h.ne_zero

theorem SoundTarget.getBlockProof_eq (h : SoundTarget nBits) :
    getBlockProof nBits = ~~~(setCompact nBits) / (setCompact nBits + 1) + 1 :=
  if_neg h.flags

/-- The work is the quotient of the 256th power of two, rounded down. -/
theorem SoundTarget.toNat_getBlockProof (h : SoundTarget nBits) :
    (getBlockProof nBits).toNat = 2 ^ 256 / ((setCompact nBits).toNat + 1) := by
  have hlt := h.succ_lt
  have hpos : 0 < (setCompact nBits).toNat := h.pos
  have hdiv : 2 ^ 256 / ((setCompact nBits).toNat + 1) =
      (2 ^ 256 - 1 - (setCompact nBits).toNat) / ((setCompact nBits).toNat + 1) + 1 := by
    rw [Nat.div_eq_sub_div (Nat.succ_pos _) hlt.le, Nat.sub_sub, Nat.add_comm 1]
  have hsmall : 2 ^ 256 / ((setCompact nBits).toNat + 1) < 2 ^ 256 :=
    Nat.div_lt_self (by decide) (by omega)
  rw [h.getBlockProof_eq, BitVec.toNat_add, BitVec.toNat_udiv, BitVec.toNat_not, h.toNat_succ]
  rw [hdiv] at hsmall ⊢
  exact Nat.mod_eq_of_lt hsmall

theorem SoundTarget.one_le_getBlockProof (h : SoundTarget nBits) :
    1 ≤ (getBlockProof nBits).toNat := by
  rw [h.toNat_getBlockProof]
  exact Nat.div_pos h.succ_lt.le (Nat.succ_pos _)

theorem SoundTarget.getBlockProofByWords_eq (h : SoundTarget nBits) :
    getBlockProofByWords nBits = some (getBlockProof nBits) := by
  unfold getBlockProofByWords
  rw [setCompactByWords_eq]
  dsimp only
  rw [if_neg h.flags, divAssign_eq _ h.succ_ne_zero, Option.map_some, h.getBlockProof_eq]

theorem one_shiftLeft_256 : (1 : Uint256) <<< 256 = 0 := by decide

/-- The one is shifted out, and nothing is divided. -/
theorem SoundTarget.getStakeTrustByWords_eq (h : SoundTarget nBits) :
    getStakeTrustByWords nBits = some 0 := by
  unfold getStakeTrustByWords
  rw [setCompactByWords_eq]
  dsimp only
  rw [if_neg h.ne_zero, shlAssign_eq, one_shiftLeft_256, divAssign_eq _ h.succ_ne_zero]
  exact congrArg some BitVec.zero_udiv

theorem getBlockTrust_of_isProofOfStake {e : Entry} (hstake : e.isProofOfStake = true) :
    e.getBlockTrust = 0 := by
  unfold Entry.getBlockTrust
  dsimp only
  split
  · rfl
  · rw [one_shiftLeft_256]
    exact BitVec.zero_udiv

/-- What `AddToBlockIndex` adds to the sums over the chain. -/
theorem sums_newEntry {m : BlockIndex.BlockMap} {block : CBlock} {ep : Entry}
    (hep : m.find block.hashPrevBlock = some ep) (par : BlockIndex.Params)
    (proc : BlockIndex.Process) (hashProofOfStake : Uint256) :
    (BlockIndex.newEntry par proc m block hashProofOfStake).nChainWork =
        ep.nChainWork + getBlockProof block.nBits ∧
      (BlockIndex.newEntry par proc m block hashProofOfStake).bnChainTrust =
        ep.bnChainTrust + (BlockIndex.placed block ep).getBlockTrust := by
  simp only [BlockIndex.newEntry, hep]
  rw [Entry.raiseValidity_eq]
  exact ⟨rfl, rfl⟩

theorem isProofOfStake_placed {block : CBlock} (hstake : block.isProofOfStake = true) (ep : Entry) :
    (BlockIndex.placed block ep).isProofOfStake = true := by
  have hflags : (BlockIndex.placed block ep).nFlags = 1 := if_pos hstake
  rw [Entry.isProofOfStake, hflags]
  rfl

/-- The proof of a block and its trust are both the work that its target stands for. -/
structure WorkAndTrustExact (e : Entry) : Prop where
  proof : (getBlockProof e.nBits).toNat = 2 ^ 256 / ((setCompact e.nBits).toNat + 1)
  one_le : 1 ≤ (getBlockProof e.nBits).toNat
  trust : e.getBlockTrust = getBlockProof e.nBits

/-- The work is exact, while the trust of every proof-of-stake block is 0, and the sum over its
chain stays where it was. -/
theorem stakeTrust_never_exact (h : SoundTarget nBits) :
    getBlockProofByWords nBits = some (getBlockProof nBits) ∧
    (getBlockProof nBits).toNat = 2 ^ 256 / ((setCompact nBits).toNat + 1) ∧
    1 ≤ (getBlockProof nBits).toNat ∧ getStakeTrustByWords nBits = some 0 ∧
    (∀ e : Entry, e.nBits = nBits → e.isProofOfStake = true →
      e.getBlockTrust = 0 ∧ ¬WorkAndTrustExact e) ∧
    ∀ (par : BlockIndex.Params) (proc : BlockIndex.Process) (m : BlockIndex.BlockMap)
      (block : CBlock) (hashProofOfStake : Uint256) (ep : Entry),
      m.find block.hashPrevBlock = some ep → block.isProofOfStake = true → block.nBits = nBits →
      (BlockIndex.newEntry par proc m block hashProofOfStake).nChainWork =
          ep.nChainWork + getBlockProof nBits ∧
        ¬ep.bnChainTrust <
          (BlockIndex.newEntry par proc m block hashProofOfStake).bnChainTrust := by
  refine ⟨h.getBlockProofByWords_eq, h.toNat_getBlockProof, h.one_le_getBlockProof,
    h.getStakeTrustByWords_eq, ?_, ?_⟩
  · rintro e rfl hstake
    refine ⟨getBlockTrust_of_isProofOfStake hstake, fun hexact => ?_⟩
    have hpos := hexact.one_le
    rw [← hexact.trust, getBlockTrust_of_isProofOfStake hstake] at hpos
    exact absurd hpos (by decide)
  · rintro par proc m block hashProofOfStake ep hep hstake rfl
    obtain ⟨hwork, htrust⟩ := sums_newEntry hep par proc hashProofOfStake
    rw [getBlockTrust_of_isProofOfStake (isProofOfStake_placed hstake ep)] at htrust
    have hsame : (BlockIndex.newEntry par proc m block hashProofOfStake).bnChainTrust =
        ep.bnChainTrust := htrust.trans (BitVec.add_zero _)
    rw [hsame]
    exact ⟨hwork, BitVec.lt_irrefl _⟩

/-- An entry of a proof-of-stake block with the highest target for a stake. -/
def stakeEntry : Entry := { nFlags := 1, nBits := 0x1e00ffff }

theorem stakeTrust_never_exact_sample :
    SoundTarget 0x1e00ffff ∧ stakeEntry.getBlockTrust = 0 ∧ ¬WorkAndTrustExact stakeEntry :=
  have hsound : SoundTarget 0x1e00ffff := ⟨by decide, by decide, by decide⟩
  ⟨hsound, (stakeTrust_never_exact hsound).2.2.2.2.1 stakeEntry rfl (by decide)⟩

/-- The trust is 0 where the work is more than a million. -/
theorem stake_trust_lost :
    SoundTarget stakeEntry.nBits ∧ stakeEntry.isProofOfStake = true ∧
      getBlockProof stakeEntry.nBits = 0x1000100 ∧ stakeEntry.getBlockTrust = 0 ∧
      ¬WorkAndTrustExact stakeEntry := by
  refine ⟨⟨by decide, by decide, by decide⟩, by decide, by decide, by decide, ?_⟩
  intro hexact
  exact absurd hexact.trust (by decide)

end Work

end Scrypta.ProofOfWork
