import Scrypta.BaseUint

/-! The operators of `base_uint` for any number of words. -/

namespace Scrypta.BaseUint

structure Words (WIDTH : ℕ) where
  pn : List (BitVec 32)
  length_pn : pn.length = WIDTH

namespace Words

variable {WIDTH : ℕ}

def value (a : Words WIDTH) : ℕ := Limbs.value a.pn

/-- `*this = 0` -/
def zero : Words WIDTH := ⟨List.replicate WIDTH 0, List.length_replicate⟩

/-- `operator<<=` -/
def shlAssign (a : Words WIDTH) (shift : ℕ) : Words WIDTH :=
  ⟨Limbs.shiftLeft a.pn shift, (Limbs.length_shiftLeft _ _).trans a.length_pn⟩

/-- `operator>>=` -/
def shrAssign (a : Words WIDTH) (shift : ℕ) : Words WIDTH :=
  ⟨Limbs.shiftRight a.pn shift, (Limbs.length_shiftRight _ _).trans a.length_pn⟩

/-- `operator*=(uint32_t)` -/
def mulAssignWord (a : Words WIDTH) (b32 : BitVec 32) : Words WIDTH :=
  ⟨Limbs.mulWord b32 0 a.pn, (Limbs.length_mulWord _ _ _).trans a.length_pn⟩

/-- `operator*=(const base_uint&)` -/
def mulAssign (a b : Words WIDTH) : Words WIDTH :=
  ⟨Limbs.mulRows b.pn a.pn (zero : Words WIDTH).pn,
    (Limbs.length_mulRows _ _ _).trans zero.length_pn⟩

/-- `bits()` -/
def bits (a : Words WIDTH) : ℕ := Limbs.bitLength a.pn WIDTH

/-- `CompareTo` -/
def compareTo (a b : Words WIDTH) : ℤ := Limbs.compareWords a.pn b.pn WIDTH

/-- `operator/=`; a division by zero throws. -/
def divAssign (a b : Words WIDTH) : Option (Words WIDTH) :=
  if b.bits = 0 then none
  else if a.bits < b.bits then some zero
  else
    let shift := a.bits - b.bits
    some ⟨Limbs.divideWords (shift + 1) a.pn (b.shlAssign shift).pn (zero : Words WIDTH).pn,
      (Limbs.length_divideWords _ _ _ _).trans zero.length_pn⟩

theorem value_lt (a : Words WIDTH) : a.value < 2 ^ (32 * WIDTH) := by
  have hlt := Limbs.value_lt a.pn
  rwa [a.length_pn] at hlt

@[simp] theorem value_zero : (zero : Words WIDTH).value = 0 := by
  change Limbs.value (List.replicate WIDTH 0#32) = 0
  induction WIDTH with
  | zero => rfl
  | succ n ih => rw [List.replicate_succ, Limbs.value, ih]; rfl

theorem value_mulAssignWord (a : Words WIDTH) (b32 : BitVec 32) :
    (a.mulAssignWord b32).value = a.value * b32.toNat % 2 ^ (32 * WIDTH) := by
  have hvalue : Limbs.value (Limbs.mulWord b32 0 a.pn) = _ :=
    Limbs.value_mulWord (by decide) a.pn
  rw [a.length_pn] at hvalue
  rw [value, mulAssignWord, hvalue, value, Nat.mul_comm (Limbs.value a.pn)]
  exact congrArg (· % _) (Nat.zero_add _)

theorem value_mulAssign (a b : Words WIDTH) :
    (a.mulAssign b).value = a.value * b.value % 2 ^ (32 * WIDTH) := by
  have hvalue : Limbs.value (Limbs.mulRows b.pn a.pn (zero : Words WIDTH).pn) = _ :=
    Limbs.value_mulRows (a.length_pn.trans zero.length_pn.symm)
      (zero.length_pn.trans b.length_pn.symm).le
  have hzero : Limbs.value (zero : Words WIDTH).pn = 0 := value_zero
  rw [hzero, Nat.zero_add, zero.length_pn] at hvalue
  exact hvalue

theorem value_shlAssign (a : Words WIDTH) (shift : ℕ) :
    (a.shlAssign shift).value = a.value * 2 ^ shift % 2 ^ (32 * WIDTH) := by
  have hvalue := Limbs.value_shiftLeft (by decide) a.pn shift
  rwa [a.length_pn] at hvalue

theorem value_shrAssign (a : Words WIDTH) (shift : ℕ) :
    (a.shrAssign shift).value = a.value / 2 ^ shift :=
  Limbs.value_shiftRight (by decide) a.pn shift

theorem bits_eq (a : Words WIDTH) : a.bits = if a.value = 0 then 0 else a.value.log2 + 1 := by
  have hbits := Limbs.bitLength_eq (by decide) a.pn
  rwa [a.length_pn] at hbits

/-- So many bits are enough. -/
theorem bits_le_iff (a : Words WIDTH) (n : ℕ) : a.bits ≤ n ↔ a.value < 2 ^ n := by
  rw [bits_eq]
  split
  · rename_i h
    rw [h]
    exact iff_of_true (Nat.zero_le n) (Nat.two_pow_pos n)
  · rename_i h
    rw [← Nat.log2_lt h]
    exact Nat.succ_le_iff

theorem bits_eq_zero_iff (a : Words WIDTH) : a.bits = 0 ↔ a.value = 0 := by
  rw [← Nat.le_zero, bits_le_iff, Nat.pow_zero, Nat.lt_one_iff]

theorem compareTo_eq (a b : Words WIDTH) : a.compareTo b =
    if a.value < b.value then -1 else if b.value < a.value then 1 else 0 := by
  have hcmp := Limbs.compareWords_all (a.length_pn.trans b.length_pn.symm)
  rwa [a.length_pn] at hcmp

theorem value_divAssign (a : Words WIDTH) {b : Words WIDTH} (hb : 0 < b.value) :
    ∃ q, a.divAssign b = some q ∧ q.value = a.value / b.value := by
  have hne : b.bits ≠ 0 := fun h => hb.ne' ((bits_eq_zero_iff b).1 h)
  obtain ⟨p, hp⟩ : ∃ p, b.bits = p + 1 := ⟨b.bits - 1, by omega⟩
  have hhigh : b.value < 2 ^ (p + 1) := (bits_le_iff b _).1 hp.le
  have hlow : 2 ^ p ≤ b.value := by
    rw [← not_lt, ← bits_le_iff, hp]
    exact Nat.not_succ_le_self p
  rw [divAssign, if_neg hne]
  split
  · rename_i hlt
    have hsmall : a.value < 2 ^ p := (bits_le_iff a p).1 (by omega)
    exact ⟨zero, rfl, by rw [value_zero, Nat.div_eq_of_lt (hsmall.trans_le hlow)]⟩
  · rename_i hge
    obtain ⟨shift, hshift⟩ : ∃ shift, a.bits = p + 1 + shift := ⟨a.bits - (p + 1), by omega⟩
    have ha : a.value < 2 ^ (p + 1 + shift) := (bits_le_iff a _).1 hshift.le
    have hfits : p + 1 + shift ≤ 32 * WIDTH := by
      rw [← hshift]
      exact (bits_le_iff a _).2 a.value_lt
    have hsub : a.bits - b.bits = shift := by omega
    refine ⟨_, rfl, ?_⟩
    have hshl : Limbs.toBits WIDTH (b.shlAssign shift).pn = Limbs.toBits WIDTH b.pn <<< shift := by
      apply BitVec.eq_of_toNat_eq
      rw [BitVec.toNat_shiftLeft, Limbs.toNat_toBits (Words.length_pn _),
        Limbs.toNat_toBits b.length_pn, Nat.shiftLeft_eq]
      exact value_shlAssign b shift
    have hzero : Limbs.toBits WIDTH (zero : Words WIDTH).pn = 0#(32 * WIDTH) := by
      apply BitVec.eq_of_toNat_eq
      rw [Limbs.toNat_toBits zero.length_pn, BitVec.toNat_zero]
      exact value_zero
    have hloop : Limbs.toBits WIDTH (Limbs.divideWords (shift + 1) a.pn (b.shlAssign shift).pn
        (zero : Words WIDTH).pn) = _ := Limbs.toBits_divideWords (by decide) a.length_pn
      (b.shlAssign shift).length_pn zero.length_pn (by omega)
    have hquot : (Limbs.divideLoop (shift + 1) (Limbs.toBits WIDTH a.pn)
        (Limbs.toBits WIDTH b.pn <<< shift) 0#(32 * WIDTH)).toNat = _ :=
      Limbs.toNat_divideLoop_aligned (by rwa [Limbs.toNat_toBits b.length_pn])
        (by rwa [Limbs.toNat_toBits b.length_pn]) (by rwa [Limbs.toNat_toBits a.length_pn]) hfits
    rw [hshl, hzero] at hloop
    rw [← hloop, Limbs.toNat_toBits a.length_pn, Limbs.toNat_toBits b.length_pn,
      Limbs.toNat_toBits ((Limbs.length_divideWords _ _ _ _).trans zero.length_pn)] at hquot
    change Limbs.value (Limbs.divideWords (a.bits - b.bits + 1) a.pn
      (b.shlAssign (a.bits - b.bits)).pn (zero : Words WIDTH).pn) = _
    rw [hsub]
    exact hquot

/-- Every operator computes what it does on the numbers that the words stand for, modulo the power
of two that does not fit. -/
theorem operators_exact (a b : Words WIDTH) :
    (a.mulAssign b).value = a.value * b.value % 2 ^ (32 * WIDTH) ∧
    (∀ b32 : BitVec 32, (a.mulAssignWord b32).value = a.value * b32.toNat % 2 ^ (32 * WIDTH)) ∧
    (0 < b.value → ∃ q, a.divAssign b = some q ∧ q.value = a.value / b.value) ∧
    (∀ shift : ℕ, (a.shlAssign shift).value = a.value * 2 ^ shift % 2 ^ (32 * WIDTH)) ∧
    (∀ shift : ℕ, (a.shrAssign shift).value = a.value / 2 ^ shift % 2 ^ (32 * WIDTH)) ∧
    (∀ n : ℕ, a.bits ≤ n ↔ a.value < 2 ^ n) ∧
    (a.compareTo b = -1 ↔ a.value < b.value) ∧ (a.compareTo b = 0 ↔ a.value = b.value) ∧
    (a.compareTo b = 1 ↔ b.value < a.value) := by
  refine ⟨value_mulAssign a b, value_mulAssignWord a, value_divAssign a, value_shlAssign a,
    fun shift => ?_, bits_le_iff a, ?_, ?_, ?_⟩
  · rw [value_shrAssign,
      Nat.mod_eq_of_lt ((Nat.div_le_self _ _).trans_lt (value_lt a))]
  all_goals
    have hcmp := compareTo_eq a b
    split_ifs at hcmp <;> rw [hcmp] <;> simp <;> omega

end Words

end Scrypta.BaseUint
