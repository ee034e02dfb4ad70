import Scrypta.Kernel
import Scrypta.ProofOfWork
import Scrypta.Toolkit.Limbs

/-! The 256-bit arithmetic that targets are computed with. The loops over eight words of 32 bits
are multiplication and division modulo the 256th power of two. -/

namespace Scrypta.BaseUint

open ProofOfWork

def WIDTH : ℕ := 8

/-- The words of a number, the lowest first. -/
def pn (x : Uint256) : List (BitVec 32) := Limbs.ofNat 32 WIDTH x.toNat

def ofPn (words : List (BitVec 32)) : Uint256 := BitVec.ofNat 256 (Limbs.value words)

/-- `operator*=(uint32_t)` -/
def mulAssignWord (x : Uint256) (b32 : BitVec 32) : Uint256 := ofPn (Limbs.mulWord b32 0 (pn x))

/-- `operator*=(const base_uint&)` -/
def mulAssign (x b : Uint256) : Uint256 :=
  ofPn (Limbs.mulRows (pn b) (pn x) (Limbs.ofNat 32 WIDTH 0))

/-- `operator<<=` -/
def shlAssign (x : Uint256) (shift : ℕ) : Uint256 := ofPn (Limbs.shiftLeft (pn x) shift)

/-- `operator>>=` -/
def shrAssign (x : Uint256) (shift : ℕ) : Uint256 := ofPn (Limbs.shiftRight (pn x) shift)

/-- `bits()` -/
def bitsByWords (x : Uint256) : ℕ := Limbs.bitLength (pn x) WIDTH

/-- `operator/=`; there is no quotient by zero. -/
def divAssign (x b : Uint256) : Option Uint256 :=
  if bits b = 0 then none
  else if bits x < bits b then some 0
  else
    let shift := bits x - bits b
    some (Limbs.divideLoop (shift + 1) x (b <<< shift) 0)

theorem length_pn (x : Uint256) : (pn x).length = WIDTH := Limbs.length_ofNat WIDTH x.toNat

theorem value_pn (x : Uint256) : Limbs.value (pn x) = x.toNat := by
  rw [pn, Limbs.value_ofNat]
  exact Nat.mod_eq_of_lt x.isLt

theorem mulAssign_eq (x b : Uint256) : mulAssign x b = x * b := by
  have hzero : Limbs.value (Limbs.ofNat 32 WIDTH 0) = 0 := by
    rw [Limbs.value_ofNat, Nat.zero_mod]
  have hvalue : Limbs.value (Limbs.mulRows (pn b) (pn x) (Limbs.ofNat 32 WIDTH 0)) = _ :=
    Limbs.value_mulRows (by rw [length_pn, Limbs.length_ofNat])
      (by rw [length_pn, Limbs.length_ofNat])
  rw [value_pn, value_pn, hzero, Limbs.length_ofNat, Nat.zero_add] at hvalue
  apply BitVec.eq_of_toNat_eq
  rw [mulAssign, ofPn, BitVec.toNat_ofNat, hvalue, BitVec.toNat_mul]
  exact Nat.mod_mod _ _

/-! Shifts. -/

theorem bit_pn (x : Uint256) (i : ℕ) : Limbs.bit (pn x) i = x.getLsbD i := by
  rw [← Limbs.testBit_value (by decide), value_pn]
  rfl

theorem getLsbD_ofPn {words : List (BitVec 32)} {i : ℕ} (hi : i < 256) :
    (ofPn words).getLsbD i = Limbs.bit words i := by
  rw [ofPn, BitVec.getLsbD_ofNat, decide_eq_true hi, Bool.true_and, Limbs.testBit_value (by decide)]

theorem lt_bits_pn (x : Uint256) {i : ℕ} (hi : i < 256) : i < 32 * (pn x).length := by
  rw [length_pn]
  exact hi

theorem shlAssign_eq (x : Uint256) (n : ℕ) : shlAssign x n = x <<< n := by
  refine BitVec.eq_of_getLsbD_eq fun i hi => ?_
  rw [shlAssign, getLsbD_ofPn hi, Limbs.bit_shiftLeft (by decide) _ _ (lt_bits_pn x hi), bit_pn,
    BitVec.getLsbD_shiftLeft, decide_eq_true hi, Bool.true_and, ← decide_not, decide_eq_decide.2
      (not_lt (a := i) (b := n))]

theorem shrAssign_eq (x : Uint256) (n : ℕ) : shrAssign x n = x >>> n := by
  refine BitVec.eq_of_getLsbD_eq fun i hi => ?_
  rw [shrAssign, getLsbD_ofPn hi, Limbs.bit_shiftRight (by decide) _ _ (lt_bits_pn x hi), bit_pn,
    BitVec.getLsbD_ushiftRight, Nat.add_comm]

/-! The number of bits. -/

theorem bitsByWords_eq (x : Uint256) : bitsByWords x = bits x := by
  have hlen : WIDTH = (pn x).length := (length_pn x).symm
  rw [bitsByWords, hlen, Limbs.bitLength_eq (by decide), value_pn, bits]
  by_cases h : x = 0
  · subst h
    rfl
  · have hne : x.toNat ≠ 0 := fun h0 => h (BitVec.eq_of_toNat_eq h0)
    rw [if_neg h, if_neg hne]

theorem bits_of_ne_zero {x : Uint256} (h : x ≠ 0) : bits x = x.toNat.log2 + 1 := if_neg h

theorem toNat_ne_zero {x : Uint256} (h : x ≠ 0) : x.toNat ≠ 0 := fun h0 =>
  h (BitVec.eq_of_toNat_eq h0)

theorem lt_two_pow_bits (x : Uint256) : x.toNat < 2 ^ bits x := by
  by_cases h : x = 0
  · subst h
    exact Nat.one_pos
  · rw [bits_of_ne_zero h]
    exact Nat.lt_log2_self

theorem two_pow_bits_le {x : Uint256} (h : x ≠ 0) : 2 ^ (bits x - 1) ≤ x.toNat := by
  rw [bits_of_ne_zero h, Nat.add_sub_cancel]
  exact Nat.log2_self_le (toNat_ne_zero h)

theorem bits_le (x : Uint256) : bits x ≤ 256 := by
  by_cases h : x = 0
  · subst h
    exact Nat.zero_le _
  · rw [bits_of_ne_zero h]
    exact (Nat.log2_lt (toNat_ne_zero h)).2 x.isLt

theorem bits_pos {x : Uint256} (h : x ≠ 0) : 0 < bits x := by
  rw [bits_of_ne_zero h]
  exact Nat.succ_pos _

/-- The quotient is the one of natural numbers. -/
theorem divAssign_eq (x : Uint256) {b : Uint256} (hb : b ≠ 0) : divAssign x b = some (x / b) := by
  have hpos := bits_pos hb
  have hx := lt_two_pow_bits x
  have hlow := two_pow_bits_le hb
  have hhigh := lt_two_pow_bits b
  unfold divAssign
  rw [if_neg hpos.ne']
  split
  · rename_i hlt
    have hle : 2 ^ bits x ≤ 2 ^ (bits b - 1) := Nat.pow_le_pow_right (by decide) (by omega)
    apply congrArg some
    apply BitVec.eq_of_toNat_eq
    rw [BitVec.toNat_udiv, Nat.div_eq_of_lt (hx.trans_le (hle.trans hlow))]
    rfl
  · rename_i hge
    obtain ⟨p, hp⟩ : ∃ p, bits b = p + 1 := ⟨bits b - 1, by omega⟩
    obtain ⟨shift, hshift⟩ : ∃ shift, bits x = p + 1 + shift := ⟨bits x - (p + 1), by omega⟩
    have hsub : bits x - bits b = shift := by omega
    rw [hp, Nat.add_sub_cancel] at hlow
    rw [hp] at hhigh
    have hfits : p + 1 + shift ≤ 256 := by
      rw [← hshift]
      exact bits_le x
    rw [hshift] at hx
    apply congrArg some
    apply BitVec.eq_of_toNat_eq
    rw [hsub, BitVec.toNat_udiv]
    exact Limbs.toNat_divideLoop_aligned hlow hhigh hx hfits

/-! What the models of the callers multiply and divide with. -/

/-- A factor that fits into 32 bits is the one that is multiplied with. -/
theorem toNat_times (x : Uint256) {n : ℤ} (h : 0 ≤ n) :
    (times x n).toNat = x.toNat * (n.toNat % 2 ^ 32) % 2 ^ 256 := by
  have hn : (BitVec.ofInt 32 n).toNat = n.toNat % 2 ^ 32 := by
    obtain ⟨m, rfl⟩ := Int.eq_ofNat_of_zero_le h
    rw [BitVec.ofInt_natCast, BitVec.toNat_ofNat, Int.toNat_natCast]
  have hlt : n.toNat % 2 ^ 32 < 2 ^ 256 :=
    (Nat.mod_lt _ (by decide)).trans (by decide)
  rw [times, BitVec.toNat_mul, BitVec.toNat_setWidth, hn, Nat.mod_eq_of_lt hlt]

theorem toNat_dividedBy (x : Uint256) {n : ℤ} (h : 0 ≤ n) (hlt : n < 2 ^ 64) :
    (dividedBy x n).toNat = x.toNat / n.toNat := by
  have hn : (BitVec.ofInt 64 n).toNat = n.toNat := by
    obtain ⟨m, rfl⟩ := Int.eq_ofNat_of_zero_le h
    rw [BitVec.ofInt_natCast, BitVec.toNat_ofNat, Int.toNat_natCast]
    apply Nat.mod_eq_of_lt
    omega
  have hwide : n.toNat < 2 ^ 256 := by
    have hpow : (2 : ℕ) ^ 64 ≤ 2 ^ 256 := Nat.pow_le_pow_right (by decide) (by decide)
    omega
  rw [dividedBy, BitVec.toNat_udiv, BitVec.toNat_setWidth, hn, Nat.mod_eq_of_lt hwide]

end Scrypta.BaseUint
