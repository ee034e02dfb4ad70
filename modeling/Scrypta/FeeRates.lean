import Mathlib.Tactic.Linarith
import Scrypta.CheckBlock
import Scrypta.FeeEstimates

/-! What a fee rate asks of transactions of different sizes. -/

namespace Scrypta.FeeEstimates

open Validation (moneyRange)

def defaultBlockPrioritySize : ℕ := 50000

/-- `0 < d` -/
def Double.pos (d : Double) : Bool := d.nonneg && d.magnitude != 0

/-- What `PrioritiseTransaction` has set for a transaction. -/
abbrev Deltas := Uint256 → Option (Double × CAmount)

def getMinRelayFee (par : Validation.Params) (mapDeltas : Deltas) (minRelayTxFee : CFeeRate)
    (hash : Uint256) (nBytes : ℕ) (fAllowFree : Bool) : CAmount :=
  let (dPriorityDelta, nFeeDelta) := (mapDeltas hash).getD (0, 0)
  if dPriorityDelta.pos || 0 < nFeeDelta then 0
  else
    let nMinFee :=
      if fAllowFree && nBytes < defaultBlockPrioritySize - 1000 then 0
      else minRelayTxFee.getFee nBytes
    if moneyRange par nMinFee then nMinFee else par.nMaxMoneyOut

namespace CFeeRate

section Sizes

variable {rate nFeePaid : ℤ} {nSize n m : ℕ}

/-- The fee for a product of rate and size: a part of a thousandth is dropped, and what would be
nothing is the whole rate. -/
def asked (rate product : ℤ) : ℤ :=
  if product < 1000 ∧ 0 < rate then rate else product / 1000

/-- A product that fits 63 bits is not cut. -/
theorem getFee_of_fits (hrate : 0 ≤ rate) (hfits : rate * nSize < 2 ^ 63) :
    getFee rate nSize = asked rate (rate * nSize) := by
  have hnonneg : 0 ≤ rate * nSize := mul_nonneg hrate (Int.natCast_nonneg nSize)
  have hmod : rate * nSize % 2 ^ 64 = rate * nSize := Int.emod_eq_of_lt hnonneg (by omega)
  rw [getFee, hmod, toInt64_eq_self (by omega) (by omega), asked]
  have hzero : rate * nSize / 1000 = 0 ↔ rate * nSize < 1000 := by omega
  simp only [hzero]

theorem fits_of_small (hlt : rate < 2 ^ 40) (hsize : nSize < 2 ^ 22) :
    rate * nSize < 2 ^ 63 := by
  calc rate * nSize ≤ 2 ^ 40 * 2 ^ 22 :=
        mul_le_mul hlt.le (by exact_mod_cast hsize.le) (Int.natCast_nonneg nSize) (by decide)
    _ < 2 ^ 63 := by decide

theorem mul_le_mul_size (hrate : 0 ≤ rate) (h : n ≤ m) : rate * n ≤ rate * m :=
  mul_le_mul_of_nonneg_left (by exact_mod_cast h) hrate

theorem asked_le_asked_iff (hrate : 0 ≤ rate) (h : n ≤ m) :
    asked rate (rate * n) ≤ asked rate (rate * m) ↔
      rate = 0 ∨ 1000 ≤ rate * n ∨ rate * m < 1000 ∨ 1000 ≤ m := by
  have hle := mul_le_mul_size hrate h
  have hnonneg : 0 ≤ rate * n := mul_nonneg hrate (Int.natCast_nonneg n)
  unfold asked
  rcases hrate.eq_or_lt with rfl | hpos
  · simp
  by_cases hlong : 1000 ≤ m
  · have hmany : rate * 1000 ≤ rate * m :=
      mul_le_mul_of_nonneg_left (by exact_mod_cast hlong) hrate
    split_ifs <;> omega
  · have hfew : rate * m ≤ rate * 999 := mul_le_mul_of_nonneg_left (by omega) hrate
    split_ifs <;> omega

/-- The fee of a larger size is smaller only where it is not rounded up to the whole rate any
more, and the size is below a thousand bytes. -/
theorem getFee_le_getFee_iff (hrate : 0 ≤ rate) (hlt : rate < 2 ^ 40) (h : n ≤ m)
    (hm : m < 2 ^ 22) :
    getFee rate n ≤ getFee rate m ↔
      rate = 0 ∨ 1000 ≤ rate * n ∨ rate * m < 1000 ∨ 1000 ≤ m := by
  rw [getFee_of_fits hrate (fits_of_small hlt (lt_of_le_of_lt h hm)),
    getFee_of_fits hrate (fits_of_small hlt hm)]
  exact asked_le_asked_iff hrate h

theorem ofPaid_of_fits (hpos : 0 < nSize) (hpaid : 0 ≤ nFeePaid)
    (hfits : nFeePaid * 1000 < 2 ^ 63) :
    ofPaid nFeePaid nSize = nFeePaid * 1000 / nSize := by
  have hmod : nFeePaid * 1000 % 2 ^ 64 = nFeePaid * 1000 :=
    Int.emod_eq_of_lt (by omega) (by omega)
  have hnonneg : 0 ≤ nFeePaid * 1000 / nSize :=
    Int.ediv_nonneg (by omega) (Int.natCast_nonneg nSize)
  have hle : nFeePaid * 1000 / nSize ≤ nFeePaid * 1000 := Int.ediv_le_self _ (by omega)
  rw [ofPaid, if_pos hpos, hmod, toInt64_eq_self (by omega) (by omega)]

/-- The rate is the quotient of a thousand times the payment by the size. -/
theorem asked_le_paid_iff (hpaid : 0 ≤ nFeePaid) (hpos : 0 < nSize) (hrate : 0 ≤ rate)
    (hfloor : rate * nSize ≤ nFeePaid * 1000) (hceil : nFeePaid * 1000 < rate * nSize + nSize) :
    asked rate (rate * nSize) ≤ nFeePaid ↔ ¬(nFeePaid = 1 ∧ nSize < 500 ∧ ¬nSize ∣ 1000) := by
  have hsize : (0 : ℤ) < nSize := by exact_mod_cast hpos
  have hdvd : rate * nSize = 1000 → nSize ∣ 1000 := fun heq => by
    have hdvd : (nSize : ℤ) ∣ 1000 := ⟨rate, by rw [mul_comm, heq]⟩
    exact_mod_cast hdvd
  rcases hrate.eq_or_lt with rfl | hr
  · rw [asked, if_neg fun hround => absurd hround.2 (lt_irrefl 0)]
    refine iff_of_true (by omega) ?_
    rintro ⟨rfl, hshort, -⟩
    omega
  have hone : (nSize : ℤ) ≤ rate * nSize := le_mul_of_one_le_left hsize.le hr
  by_cases hround : rate * nSize < 1000
  · -- one unit at most was paid, and the rate is what is asked
    rw [asked, if_pos ⟨hround, hr⟩]
    have hpaid1 : nFeePaid = 1 := by omega
    have hnot : ¬nSize ∣ 1000 := by
      rintro ⟨k, hk⟩
      have hk' : (1000 : ℤ) = nSize * k := by exact_mod_cast hk
      have hlt : rate < k := by
        by_contra hge
        have hle := mul_le_mul_of_nonneg_right (not_lt.1 hge) hsize.le
        rw [mul_comm, ← hk'] at hle
        omega
      have hnext : (rate + 1) * nSize ≤ k * nSize := mul_le_mul_of_nonneg_right hlt hsize.le
      rw [add_mul, one_mul, mul_comm (k : ℤ), ← hk'] at hnext
      omega
    rw [hpaid1] at hceil ⊢
    constructor
    · rintro hle ⟨-, hshort, -⟩
      have hr1 : rate = 1 := by omega
      rw [hr1] at hceil
      omega
    · intro hlong
      have hlong' : ¬nSize < 500 := fun hshort => hlong ⟨rfl, hshort, hnot⟩
      by_contra hmore
      have htwo : 2 * (nSize : ℤ) ≤ rate * nSize :=
        mul_le_mul_of_nonneg_right (by omega) hsize.le
      omega
  · rw [asked, if_neg fun h => hround h.1]
    refine iff_of_true (by omega) ?_
    rintro ⟨rfl, -, hnot⟩
    exact hnot (hdvd (by omega))

/-- What was paid is asked again, except where one unit was paid for few bytes. -/
theorem getFee_ofPaid_le_iff (hpos : 0 < nSize) (hpaid : 0 ≤ nFeePaid)
    (hfits : nFeePaid * 1000 < 2 ^ 63) :
    getFee (ofPaid nFeePaid nSize) nSize ≤ nFeePaid ↔
      ¬(nFeePaid = 1 ∧ nSize < 500 ∧ ¬nSize ∣ 1000) := by
  rw [ofPaid_of_fits hpos hpaid hfits]
  generalize hr : nFeePaid * 1000 / (nSize : ℤ) = r
  have hsize : (0 : ℤ) < nSize := by exact_mod_cast hpos
  have hnonneg : 0 ≤ r := hr ▸ Int.ediv_nonneg (by omega) hsize.le
  have hfloor : r * nSize ≤ nFeePaid * 1000 := hr ▸ Int.ediv_mul_le _ hsize.ne'
  have hceil : nFeePaid * 1000 < r * nSize + nSize := by
    have hlt := Int.lt_ediv_add_one_mul_self (nFeePaid * 1000) hsize
    rw [hr, add_mul, one_mul] at hlt
    exact hlt
  rw [getFee_of_fits hnonneg (by omega)]
  exact asked_le_paid_iff hpaid hpos hnonneg hfloor hceil

theorem getFee_nonneg (hrate : 0 ≤ rate) (hfits : rate * nSize < 2 ^ 63) :
    0 ≤ getFee rate nSize := by
  have hnonneg : 0 ≤ rate * nSize := mul_nonneg hrate (Int.natCast_nonneg nSize)
  rw [getFee_of_fits hrate hfits]
  change @LE.le ℤ _ 0 (asked rate (rate * nSize))
  unfold asked
  split_ifs <;> omega

end Sizes

/-- Fees above all the money count as all the money. -/
theorem clamped_le_clamped (par : Validation.Params) {a b : CAmount} (ha : 0 ≤ a) (h : a ≤ b) :
    (if moneyRange par a then a else par.nMaxMoneyOut) ≤
      if moneyRange par b then b else par.nMaxMoneyOut := by
  simp only [moneyRange, Bool.and_eq_true, decide_eq_true_eq]
  split_ifs with hina hinb hinb
  · exact h
  · exact hina.2
  · exact absurd ⟨ha, h.trans hinb.2⟩ hina
  · exact le_rfl

/-- A rate of a thousand or more asks no less of a larger transaction to be relayed. -/
theorem getMinRelayFee_mono (par : Validation.Params) (mapDeltas : Deltas) {rate : ℤ}
    (hrate : rate = 0 ∨ 1000 ≤ rate) (hlt : rate < 2 ^ 40) (hash : Uint256) (fAllowFree : Bool)
    {n m : ℕ} (hn : 1 ≤ n) (h : n ≤ m) (hm : m < 2 ^ 22) :
    getMinRelayFee par mapDeltas rate hash n fAllowFree ≤
      getMinRelayFee par mapDeltas rate hash m fAllowFree := by
  have hnonneg : 0 ≤ rate := by omega
  have hfeeN := getFee_nonneg hnonneg (fits_of_small hlt (lt_of_le_of_lt h hm))
  have hfeeM := getFee_nonneg hnonneg (fits_of_small hlt hm)
  have hmono : getFee rate n ≤ getFee rate m := by
    refine (getFee_le_getFee_iff hnonneg hlt h hm).2 ?_
    rcases hrate with hzero | hbig
    · exact Or.inl hzero
    · have hone : rate ≤ rate * n := le_mul_of_one_le_right hnonneg (by exact_mod_cast hn)
      exact Or.inr (Or.inl (hbig.trans hone))
  have hfree : (0 : CAmount) ≤ if (fAllowFree && n < defaultBlockPrioritySize - 1000) = true
      then 0 else getFee rate n := by
    split
    · exact le_rfl
    · exact hfeeN
  unfold getMinRelayFee
  dsimp only
  split
  · exact le_rfl
  refine clamped_le_clamped par hfree ?_
  cases fAllowFree with
  | false => exact hmono
  | true =>
    by_cases hshort : m < defaultBlockPrioritySize - 1000
    · simp [hshort, lt_of_le_of_lt h hshort]
    · simp only [hshort, decide_false, Bool.and_false, Bool.false_eq_true, if_false]
      split
      · exact hfeeM
      · exact hmono

/-- When a larger transaction is asked for no less, and when what was paid is not exceeded. -/
theorem required_fees_monotone :
    (∀ (rate : ℤ) (n m : ℕ), 0 ≤ rate → rate < 2 ^ 40 → n ≤ m → m < 2 ^ 22 →
      (getFee rate n ≤ getFee rate m ↔
        rate = 0 ∨ 1000 ≤ rate * n ∨ rate * m < 1000 ∨ 1000 ≤ m)) ∧
    (∀ (nFeePaid : ℤ) (nSize : ℕ), 0 < nSize → 0 ≤ nFeePaid → nFeePaid * 1000 < 2 ^ 63 →
      (getFee (ofPaid nFeePaid nSize) nSize ≤ nFeePaid ↔
        ¬(nFeePaid = 1 ∧ nSize < 500 ∧ ¬nSize ∣ 1000))) ∧
    ∀ (par : Validation.Params) (mapDeltas : Deltas) (rate : ℤ) (hash : Uint256)
      (fAllowFree : Bool) (n m : ℕ), rate = 0 ∨ 1000 ≤ rate → rate < 2 ^ 40 → 1 ≤ n → n ≤ m →
      m < 2 ^ 22 → getMinRelayFee par mapDeltas rate hash n fAllowFree ≤
        getMinRelayFee par mapDeltas rate hash m fAllowFree :=
  ⟨fun _ _ _ hrate hlt h hm => getFee_le_getFee_iff hrate hlt h hm,
    fun _ _ hpos hpaid hfits => getFee_ofPaid_le_iff hpos hpaid hfits,
    fun par mapDeltas _ hash fAllowFree _ _ hrate hlt hn h hm =>
      getMinRelayFee_mono par mapDeltas hrate hlt hash fAllowFree hn h hm⟩

/-- A rate of five for a thousand bytes asks five for 199 bytes and one for 200, and one unit paid
for 300 bytes is a rate that asks three for them. -/
theorem rounding_lowers_fee :
    ¬getFee 5 199 ≤ getFee 5 200 ∧ ¬getFee (ofPaid 1 300) 300 ≤ 1 := by
  decide

end CFeeRate

end Scrypta.FeeEstimates
