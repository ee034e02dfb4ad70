import Scrypta.BackedBlocks
import Scrypta.BaseUint

/-! The difficulty after the proof-of-work blocks. The factor that the target moves by is kept in
32 bits, and the product with it in 256. -/

namespace Scrypta.ProofOfWork

open BaseUint

/-! The compact form. -/

section Compact

variable {x y : Uint256}

/-- The number of bytes. -/
def byteSize (x : Uint256) : ℕ := (bits x + 7) / 8

/-- The highest three bytes. -/
def topBytes (x : Uint256) : ℕ :=
  if byteSize x ≤ 3 then x.toNat * 256 ^ (3 - byteSize x) else x.toNat / 256 ^ (byteSize x - 3)

theorem pow_256 (k : ℕ) : 256 ^ k = 2 ^ (8 * k) := by
  rw [Nat.pow_mul]

theorem byteSize_pos (h : x ≠ 0) : 0 < byteSize x := by
  have hpos := bits_pos h
  unfold byteSize
  omega

theorem byteSize_le (x : Uint256) : byteSize x ≤ 32 := by
  have hle := bits_le x
  unfold byteSize
  omega

theorem lt_byteSize (x : Uint256) : x.toNat < 256 ^ byteSize x := by
  rw [pow_256]
  refine (lt_two_pow_bits x).trans_le (Nat.pow_le_pow_right (by decide) ?_)
  unfold byteSize
  omega

theorem le_byteSize (h : x ≠ 0) : 256 ^ (byteSize x - 1) ≤ x.toNat := by
  have hpos := bits_pos h
  rw [pow_256]
  refine (Nat.pow_le_pow_right (by decide) ?_).trans (two_pow_bits_le h)
  unfold byteSize
  omega

/-- What the top bytes leave out is less than one of them. -/
theorem topBytes_bounds (x : Uint256) :
    topBytes x * 256 ^ byteSize x ≤ x.toNat * 256 ^ 3 ∧
      x.toNat * 256 ^ 3 < (topBytes x + 1) * 256 ^ byteSize x := by
  have hpos : 0 < 256 ^ byteSize x := Nat.pow_pos (by decide)
  unfold topBytes
  split
  · rename_i hsmall
    have hpow : 256 ^ (3 - byteSize x) * 256 ^ byteSize x = 256 ^ 3 := by
      rw [← Nat.pow_add]
      congr 1
      omega
    rw [Nat.mul_assoc, hpow, Nat.add_mul, Nat.mul_assoc, hpow]
    omega
  · rename_i hlarge
    have hpow : 256 ^ byteSize x = 256 ^ (byteSize x - 3) * 256 ^ 3 := by
      rw [← Nat.pow_add]
      congr 1
      omega
    have hlow : 0 < 256 ^ (byteSize x - 3) := Nat.pow_pos (by decide)
    rw [hpow, ← Nat.mul_assoc, ← Nat.mul_assoc]
    constructor
    · exact Nat.mul_le_mul_right _ (Nat.div_mul_le_self _ _)
    · apply Nat.mul_lt_mul_of_pos_right _ (by decide)
      rw [Nat.mul_comm]
      exact Nat.lt_mul_div_succ _ hlow

theorem topBytes_range (h : x ≠ 0) : 2 ^ 16 ≤ topBytes x ∧ topBytes x < 2 ^ 24 := by
  have hlt := lt_byteSize x
  have hle := le_byteSize h
  have hpos := byteSize_pos h
  obtain ⟨hlow, hhigh⟩ := topBytes_bounds x
  have hpow : 256 ^ byteSize x = 256 ^ (byteSize x - 1) * 256 := by
    rw [← Nat.pow_succ]
    congr 1
    omega
  have hunit : 0 < 256 ^ (byteSize x - 1) := Nat.pow_pos (by decide)
  constructor
  · by_contra hless
    have hmul : (topBytes x + 1) * 256 ^ byteSize x ≤ 2 ^ 16 * 256 ^ byteSize x :=
      Nat.mul_le_mul_right _ (by omega)
    rw [hpow] at hmul hhigh
    omega
  · by_contra hmore
    have hmul : 2 ^ 24 * 256 ^ byteSize x ≤ topBytes x * 256 ^ byteSize x :=
      Nat.mul_le_mul_right _ (by omega)
    omega

theorem toNat_or_shift {word : BitVec 32} {nSize : ℕ} (hword : word.toNat < 2 ^ 24)
    (hsize : nSize < 256) :
    (word ||| (BitVec.ofNat 32 nSize <<< 24)).toNat = nSize * 2 ^ 24 + word.toNat := by
  have hor := Nat.shiftLeft_add_eq_or_of_lt hword nSize
  rw [Nat.shiftLeft_eq] at hor
  rw [BitVec.toNat_or, BitVec.toNat_shiftLeft, BitVec.toNat_ofNat,
    Nat.mod_eq_of_lt (by omega : nSize < 2 ^ 32), Nat.shiftLeft_eq,
    Nat.mod_eq_of_lt (by omega : nSize * 2 ^ 24 < 2 ^ 32), hor, Nat.or_comm]

theorem signBit_iff_mod (word : BitVec 32) :
    word &&& 0x00800000 ≠ 0 ↔ 2 ^ 23 ≤ word.toNat % 2 ^ 24 := by
  have hbit : (0x00800000 : BitVec 32) = BitVec.twoPow 32 23 := by decide
  have htest : word.getLsbD 23 = decide (word.toNat / 2 ^ 23 % 2 = 1) := by
    rw [BitVec.getLsbD, Nat.testBit_eq_decide_div_mod_eq]
  rw [hbit, BitVec.and_twoPow, htest]
  by_cases h : word.toNat / 2 ^ 23 % 2 = 1
  · rw [decide_eq_true h, if_pos rfl]
    exact iff_of_true (by decide) (by omega)
  · rw [decide_eq_false h, if_neg Bool.false_ne_true]
    exact iff_of_false (fun hne => hne rfl) (by omega)

theorem signBit_iff {word : BitVec 32} (hword : word.toNat < 2 ^ 24) :
    word &&& 0x00800000 ≠ 0 ↔ 2 ^ 23 ≤ word.toNat := by
  rw [signBit_iff_mod, Nat.mod_eq_of_lt hword]

/-- The word that is packed with the size. -/
def topWord (x : Uint256) : BitVec 32 :=
  if byteSize x ≤ 3 then (x.setWidth 64 <<< (8 * (3 - byteSize x))).setWidth 32
  else (x >>> (8 * (byteSize x - 3))).setWidth 32

theorem getCompact_eq_topWord (x : Uint256) : getCompact x =
    if topWord x &&& 0x00800000 ≠ 0 then
      (topWord x >>> 8) ||| (BitVec.ofNat 32 (byteSize x + 1) <<< 24)
    else topWord x ||| (BitVec.ofNat 32 (byteSize x) <<< 24) := rfl

theorem toNat_topWord (h : x ≠ 0) : (topWord x).toNat = topBytes x := by
  obtain ⟨_, hlt⟩ := topBytes_range h
  have hsize := lt_byteSize x
  unfold topWord
  unfold topBytes at hlt ⊢
  split
  · rename_i hsmall
    rw [if_pos hsmall] at hlt
    have hx : x.toNat < 2 ^ 64 := by
      have hle : 256 ^ byteSize x ≤ 256 ^ 3 := Nat.pow_le_pow_right (by decide) hsmall
      omega
    rw [BitVec.toNat_setWidth, BitVec.toNat_shiftLeft, BitVec.toNat_setWidth, Nat.mod_eq_of_lt hx,
      Nat.shiftLeft_eq, ← pow_256, Nat.mod_eq_of_lt (by omega), Nat.mod_eq_of_lt (by omega)]
  · rename_i hlarge
    rw [if_neg hlarge] at hlt
    rw [BitVec.toNat_setWidth, BitVec.toNat_ushiftRight, Nat.shiftRight_eq_div_pow, ← pow_256,
      Nat.mod_eq_of_lt (by omega)]

theorem topWord_lt (x : Uint256) : (topWord x).toNat < 2 ^ 24 := by
  by_cases h : x = 0
  · subst h
    decide
  · rw [toNat_topWord h]
    exact (topBytes_range h).2

theorem toNat_getCompact (h : x ≠ 0) :
    (getCompact x).toNat = if topBytes x < 2 ^ 23 then byteSize x * 2 ^ 24 + topBytes x
      else (byteSize x + 1) * 2 ^ 24 + topBytes x / 256 := by
  have hsize := byteSize_le x
  have hlt := topWord_lt x
  have hsign := signBit_iff hlt
  rw [getCompact_eq_topWord, ← toNat_topWord h]
  by_cases hbit : 2 ^ 23 ≤ (topWord x).toNat
  · have hshift : (topWord x >>> 8).toNat = (topWord x).toNat / 256 := by
      rw [BitVec.toNat_ushiftRight, Nat.shiftRight_eq_div_pow]
    rw [if_pos (hsign.2 hbit), if_neg (not_lt.2 hbit), toNat_or_shift (by omega) (by omega), hshift]
  · rw [if_neg fun hne => hbit (hsign.1 hne), if_pos (not_le.1 hbit),
      toNat_or_shift hlt (by omega)]

/-- The compact form holds the number up to a relative error. -/
theorem getCompact_spec (h : x ≠ 0) : ∃ nSize nWord, 2 ^ 15 ≤ nWord ∧ nWord < 2 ^ 23 ∧
    (getCompact x).toNat = nSize * 2 ^ 24 + nWord ∧ nWord * 256 ^ nSize ≤ x.toNat * 256 ^ 3 ∧
      x.toNat * 256 ^ 3 < (nWord + 1) * 256 ^ nSize := by
  obtain ⟨hlo, hhi⟩ := topBytes_range h
  obtain ⟨hlow, hhigh⟩ := topBytes_bounds x
  rw [toNat_getCompact h]
  split
  · rename_i hsmall
    exact ⟨byteSize x, topBytes x, by omega, hsmall, rfl, hlow, hhigh⟩
  · have hpow : 256 ^ (byteSize x + 1) = 256 * 256 ^ byteSize x := by
      rw [Nat.pow_succ, Nat.mul_comm]
    refine ⟨byteSize x + 1, topBytes x / 256, by omega, by omega, rfl, ?_, ?_⟩
    · rw [hpow, ← Nat.mul_assoc]
      exact (Nat.mul_le_mul_right _ (Nat.div_mul_le_self _ _)).trans hlow
    · rw [hpow, ← Nat.mul_assoc]
      refine hhigh.trans_le (Nat.mul_le_mul_right _ ?_)
      omega

/-- Numbers with one compact form are less than twice each other. -/
theorem lt_two_mul_of_getCompact (hx : x ≠ 0) (hy : y ≠ 0) (h : getCompact x = getCompact y) :
    y.toNat < 2 * x.toNat := by
  obtain ⟨nSize, nWord, hmin, hlt, hcompact, hlow, _⟩ := getCompact_spec hx
  obtain ⟨nSize', nWord', _, hlt', hcompact', _, hhigh'⟩ := getCompact_spec hy
  rw [h, hcompact'] at hcompact
  obtain rfl : nSize' = nSize := by omega
  obtain rfl : nWord' = nWord := by omega
  have hunit : 256 ^ nSize' ≤ nWord' * 256 ^ nSize' := Nat.le_mul_of_pos_left _ (by omega)
  rw [Nat.add_mul, Nat.one_mul] at hhigh'
  omega

end Compact

/-! The new target. -/

/-- The highest target of a staked block. -/
def stakeLimit : ℕ := 2 ^ 232 - 1

/-- The limit in place of what passes it, and of zero. -/
def limited (q : ℕ) : ℕ := if q = 0 then stakeLimit else min stakeLimit q

/-- These are packed like the limit. -/
def AtLimit (q : ℕ) : Prop := 65535 * 2 ^ 216 ≤ q

theorem limited_pos (q : ℕ) : 0 < limited q := by
  have hlimit : 0 < stakeLimit := by decide
  unfold limited
  split
  · exact hlimit
  · rename_i hne
    exact lt_min hlimit (Nat.pos_of_ne_zero hne)

theorem limited_le (q : ℕ) : limited q ≤ stakeLimit := by
  unfold limited
  split
  · exact Nat.le_refl _
  · exact min_le_left _ _

theorem atLimit_limited (q : ℕ) : AtLimit (limited q) ↔ q = 0 ∨ AtLimit q := by
  have hlimit : AtLimit stakeLimit := by
    change 65535 * 2 ^ 216 ≤ 2 ^ 232 - 1
    decide
  unfold limited
  split
  · rename_i hzero
    exact iff_of_true hlimit (Or.inl hzero)
  · rename_i hne
    unfold AtLimit at hlimit ⊢
    rw [Nat.le_min, or_iff_right hne]
    exact and_iff_right hlimit

theorem toNat_ofNat_limited (q : ℕ) : (BitVec.ofNat 256 (limited q)).toNat = limited q := by
  have hlimit : stakeLimit < 2 ^ 256 := by decide
  rw [BitVec.toNat_ofNat]
  exact Nat.mod_eq_of_lt ((limited_le q).trans_lt hlimit)

theorem ofNat_limited_ne_zero (q : ℕ) : BitVec.ofNat 256 (limited q) ≠ 0 := fun h => by
  have hpos := limited_pos q
  rw [← toNat_ofNat_limited, h] at hpos
  exact absurd hpos (lt_irrefl _)

theorem getCompact_of_atLimit {x : Uint256} (hlow : AtLimit x.toNat)
    (hhigh : x.toNat ≤ stakeLimit) : getCompact x = 0x1e00ffff := by
  have hlimit : stakeLimit = 2 ^ 232 - 1 := rfl
  unfold AtLimit at hlow
  rw [hlimit] at hhigh
  have hne : x ≠ 0 := by
    rintro rfl
    exact absurd hlow (by decide)
  have hlog : x.toNat.log2 = 231 := (Nat.log2_eq_iff (by omega)).2 ⟨by omega, by omega⟩
  have hsize : byteSize x = 29 := by
    unfold byteSize
    rw [bits_of_ne_zero hne, hlog]
  have htop : topBytes x = x.toNat / 256 ^ 26 := by
    unfold topBytes
    rw [hsize, if_neg (by decide)]
  have hlo : 16776960 ≤ topBytes x := by
    rw [htop, Nat.le_div_iff_mul_le (by decide)]
    omega
  have hhi := (topBytes_range hne).2
  apply BitVec.eq_of_toNat_eq
  rw [toNat_getCompact hne, hsize, if_neg (by omega)]
  change 30 * 2 ^ 24 + topBytes x / 256 = 503382015
  omega

theorem atLimit_of_getCompact {x : Uint256} (hne : x ≠ 0) (h : getCompact x = 0x1e00ffff) :
    AtLimit x.toNat := by
  obtain ⟨nSize, nWord, _, hlt, hcompact, hlow, _⟩ := getCompact_spec hne
  rw [h] at hcompact
  change 503382015 = _ at hcompact
  obtain rfl : nSize = 30 := by omega
  obtain rfl : nWord = 65535 := by omega
  unfold AtLimit
  omega

theorem getCompact_limited_iff (q : ℕ) :
    getCompact (BitVec.ofNat 256 (limited q)) = 0x1e00ffff ↔ q = 0 ∨ AtLimit q := by
  rw [← atLimit_limited]
  constructor
  · intro h
    have hat := atLimit_of_getCompact (ofNat_limited_ne_zero q) h
    rw [toNat_ofNat_limited] at hat
    exact hat
  · intro h
    apply getCompact_of_atLimit
    · rw [toNat_ofNat_limited]
      exact h
    · rw [toNat_ofNat_limited]
      exact limited_le q

/-! The block after a staked one. -/

section Retarget

variable {par : Params} {p : CBlockIndex} {a : BlockInfo}

/-- The time since the parent, one second where it is negative. -/
def actualSpacing (p : CBlockIndex) (a : BlockInfo) : ℕ :=
  if a.nTime.toNat < p.label.nTime.toNat then 1 else a.nTime.toNat - p.label.nTime.toNat

/-- The factor, over 2460. -/
def spacingFactor (p : CBlockIndex) (a : BlockInfo) : ℕ := 2340 + 2 * actualSpacing p a

def stakeTarget (a : BlockInfo) : ℕ := (setCompact a.nBits).toNat

theorem retargetStake_child (p : CBlockIndex) (a : BlockInfo) :
    retargetStake (.child p a) = getCompact (BitVec.ofNat 256 (limited
      (stakeTarget a * (spacingFactor p a % 2 ^ 32) % 2 ^ 256 / 2460))) := by
  have hspacing : (if CBlockIndex.getBlockTime (.child p a) - CBlockIndex.getBlockTime p < 0 then 1
      else CBlockIndex.getBlockTime (.child p a) - CBlockIndex.getBlockTime p) =
      actualSpacing p a := by
    change (if (a.nTime.toNat : ℤ) - p.label.nTime.toNat < 0 then (1 : ℤ)
      else (a.nTime.toNat : ℤ) - p.label.nTime.toNat) = _
    unfold actualSpacing
    split_ifs <;> omega
  have hfactor : ((60 * 40 / 60 - 1) * 60 + (actualSpacing p a : ℤ) + actualSpacing p a).toNat =
      spacingFactor p a := by
    unfold spacingFactor
    omega
  have hnew : (dividedBy (times (setCompact a.nBits)
      ((60 * 40 / 60 - 1) * 60 + (actualSpacing p a : ℤ) + actualSpacing p a))
      ((60 * 40 / 60 + 1) * 60)).toNat =
      stakeTarget a * (spacingFactor p a % 2 ^ 32) % 2 ^ 256 / 2460 := by
    rw [toNat_dividedBy _ (by decide) (by decide), toNat_times _ (by omega), hfactor]
    rfl
  have hmax : ((~~~0 : Uint256) >>> 24).toNat = stakeLimit := by decide
  have hlabel : (Lineage.child p a).label = a := rfl
  unfold retargetStake
  dsimp only [Lineage.parent?]
  rw [hspacing, hlabel]
  generalize dividedBy (times (setCompact a.nBits)
    ((60 * 40 / 60 - 1) * 60 + (actualSpacing p a : ℤ) + actualSpacing p a))
    ((60 * 40 / 60 + 1) * 60) = bnNew at hnew ⊢
  apply congrArg getCompact
  apply BitVec.eq_of_toNat_eq
  rw [toNat_ofNat_limited, ← hnew]
  unfold limited
  by_cases hzero : bnNew = 0
  · rw [if_pos (Or.inl hzero), hmax, hzero]
    rfl
  · rw [if_neg (toNat_ne_zero hzero)]
    split
    · rename_i hor
      have hlt := hor.resolve_left hzero
      rw [BitVec.lt_def, hmax] at hlt
      rw [hmax, min_eq_left hlt.le]
    · rename_i hnot
      have hle := BitVec.not_lt.1 fun hlt => hnot (Or.inr hlt)
      rw [BitVec.le_def, hmax] at hle
      exact (min_eq_right hle).symm

/-- Above the proof-of-work blocks of the networks there are more than 24 blocks. -/
theorem getNextWorkRequired_staked (hlast : 100 ≤ par.nLastPOWBlock)
    (hpow : par.nLastPOWBlock < (Lineage.child p a).height) :
    getNextWorkRequired par (.child p a) = retargetStake (.child p a) := by
  have hvalue : pastBlocks = 24 := rfl
  unfold getNextWorkRequired
  rw [if_neg (by omega), if_pos hpow]

/-- The factor is below 32 bits and the product below 256. Where it is not, the target is past
the limit, and what is left of the product has to be past it too, or to vanish. -/
def KeepsProduct (bnTarget factor : ℕ) : Prop :=
  (factor < 2 ^ 32 ∧ bnTarget * factor < 2 ^ 256) ∨
    AtLimit (bnTarget * factor / 2460) ∧
      (bnTarget * (factor % 2 ^ 32) % 2 ^ 256 < 2460 ∨
        AtLimit (bnTarget * (factor % 2 ^ 32) % 2 ^ 256 / 2460))

/-- What a product has left that is cut without passing the limit. -/
theorem two_mul_le_of_narrowed (t : ℕ) {f : ℕ} (hf : 2 ^ 32 ≤ f) :
    2 * (t * (f % 2 ^ 32) % 2 ^ 256) ≤ t * f := by
  have hmod : 2 * (f % 2 ^ 32) ≤ f := by omega
  have hmul : t * (2 * (f % 2 ^ 32)) ≤ t * f := Nat.mul_le_mul_left t hmod
  have hle := Nat.mod_le (t * (f % 2 ^ 32)) (2 ^ 256)
  rw [Nat.mul_left_comm] at hmul
  omega

theorem getCompact_limited_eq_iff {t f : ℕ} (ht : 0 < t) :
    getCompact (BitVec.ofNat 256 (limited (t * (f % 2 ^ 32) % 2 ^ 256 / 2460))) =
      getCompact (BitVec.ofNat 256 (limited (t * f / 2460))) ↔ KeepsProduct t f := by
  have hzero (q : ℕ) : q / 2460 = 0 ↔ q < 2460 := Nat.div_eq_zero_iff_lt (by decide)
  unfold KeepsProduct
  by_cases hkept : f < 2 ^ 32 ∧ t * f < 2 ^ 256
  · refine iff_of_true ?_ (Or.inl hkept)
    rw [Nat.mod_eq_of_lt hkept.1, Nat.mod_eq_of_lt hkept.2]
  · rw [or_iff_right hkept]
    have hf : t * f < 2 ^ 256 → 2 ^ 32 ≤ f := fun hlt => not_lt.1 fun hf => hkept ⟨hf, hlt⟩
    have hlarge : 2460 ≤ t * f := by
      by_contra hsmall
      have hle : f ≤ t * f := Nat.le_mul_of_pos_left f ht
      have h32 := hf (by omega)
      omega
    constructor
    · intro heq
      by_cases hat : AtLimit (t * f / 2460)
      · rw [(getCompact_limited_iff _).2 (Or.inr hat)] at heq
        have hleft := (getCompact_limited_iff _).1 heq
        rw [hzero] at hleft
        exact ⟨hat, hleft⟩
      · exfalso
        have hexact : ¬(t * f / 2460 = 0 ∨ AtLimit (t * f / 2460)) := by
          rintro (h | h)
          · exact absurd ((hzero _).1 h) (not_lt.2 hlarge)
          · exact hat h
        have hcut : ¬(t * (f % 2 ^ 32) % 2 ^ 256 / 2460 = 0 ∨
            AtLimit (t * (f % 2 ^ 32) % 2 ^ 256 / 2460)) := fun h =>
          hexact ((getCompact_limited_iff _).1 (heq.symm.trans ((getCompact_limited_iff _).2 h)))
        have hfits : t * f < 2 ^ 256 := by
          unfold AtLimit at hat
          omega
        have hhalf := two_mul_le_of_narrowed t (hf hfits)
        have hdouble := lt_two_mul_of_getCompact (ofNat_limited_ne_zero _)
          (ofNat_limited_ne_zero _) heq
        rw [toNat_ofNat_limited, toNat_ofNat_limited] at hdouble
        have hlimited (q : ℕ) (h : ¬(q = 0 ∨ AtLimit q)) : limited q = q := by
          have hlimit : stakeLimit = 2 ^ 232 - 1 := rfl
          unfold limited
          unfold AtLimit at h
          rw [if_neg fun h0 => h (Or.inl h0), hlimit]
          omega
        rw [hlimited _ hexact, hlimited _ hcut] at hdouble
        omega
    · rintro ⟨hat, hleft⟩
      rw [(getCompact_limited_iff _).2 (Or.inr hat), getCompact_limited_iff, hzero]
      exact hleft

/-- The new target is the one of the unbounded integers. -/
theorem getNextWorkRequired_exact_iff (hlast : 100 ≤ par.nLastPOWBlock)
    (hpow : par.nLastPOWBlock < (Lineage.child p a).height) (hpos : 0 < stakeTarget a) :
    getNextWorkRequired par (.child p a) = getCompact (BitVec.ofNat 256 (limited
      (stakeTarget a * spacingFactor p a / 2460))) ↔
      KeepsProduct (stakeTarget a) (spacingFactor p a) := by
  rw [getNextWorkRequired_staked hlast hpow, retargetStake_child]
  exact getCompact_limited_eq_iff hpos

/-- A block on the last proof-of-work block of the main network, the given time after it. -/
def stakedAfter (nSeconds : BitVec 32) (nBits : BitVec 32) : BlockInfo :=
  ⟨2000, 1500000000 + nSeconds, nBits, true, false, 0⟩

set_option maxRecDepth 8000 in
theorem lt_height_staked (a : BlockInfo) : Backing.mainWork.nLastPOWBlock <
    (Lineage.child (Validation.plainChain 750) a).height := by
  have hheight : (Validation.plainChain 750).height = 750 := by decide
  rw [Lineage.height_child, hheight]
  decide

/-- After a minute the factor is one. -/
theorem getNextWorkRequired_exact_minute :
    getNextWorkRequired Backing.mainWork
      (.child (Validation.plainChain 750) (stakedAfter 60 0x1e00ffff)) =
      getCompact (BitVec.ofNat 256 (limited (stakeTarget (stakedAfter 60 0x1e00ffff) *
        spacingFactor (Validation.plainChain 750) (stakedAfter 60 0x1e00ffff) / 2460))) :=
  (getNextWorkRequired_exact_iff (by decide) (lt_height_staked _) (by decide)).2
    (Or.inl ⟨by decide, by decide⟩)

/-- After 97 days at the limit the product wraps, and the target falls to less than a thousandth
of the limit, where it should stay. -/
theorem late_block_wraps :
    stakeTarget (stakedAfter 8387567 0x1e00ffff) ≤ stakeLimit ∧
      getNextWorkRequired Backing.mainWork
        (.child (Validation.plainChain 750) (stakedAfter 8387567 0x1e00ffff)) = 0x1c352d2a ∧
      getCompact (BitVec.ofNat 256 (limited (stakeTarget (stakedAfter 8387567 0x1e00ffff) *
        spacingFactor (Validation.plainChain 750) (stakedAfter 8387567 0x1e00ffff) / 2460))) =
        0x1e00ffff := by
  have hstaked := getNextWorkRequired_staked (by decide : 100 ≤ Backing.mainWork.nLastPOWBlock)
    (lt_height_staked (stakedAfter 8387567 0x1e00ffff))
  refine ⟨by decide, ?_, by decide⟩
  rw [hstaked]
  decide

end Retarget

end Scrypta.ProofOfWork
