import Scrypta.StakeBranch

/-! The search mode of the kernel check. The staker passes a start time and a drift and gets
the last time of the window that hits the target. The two time checks look at the start of the
window, so a start that is too young ends the search although later times of the window may
pass. -/

namespace Scrypta.Kernel

section Loop

variable {nTimeTx nHashDrift : BitVec 32} {hashAt : BitVec 32 → Uint256} {hit : Uint256 → Bool}

theorem tryTime_eq (k : ℕ) :
    nTimeTx + nHashDrift - (nHashDrift - BitVec.ofNat 32 k) = nTimeTx + BitVec.ofNat 32 k := by
  generalize BitVec.ofNat 32 k = i
  bv_omega

/-- The time before its last count is tried first. -/
theorem searchLoop_succ (last : Option Uint256) (n : ℕ) :
    searchLoop nTimeTx nHashDrift hashAt hit last (n + 1) =
      if hit (hashAt (nTimeTx + BitVec.ofNat 32 (n + 1))) then
        ⟨true, nTimeTx + BitVec.ofNat 32 (n + 1),
          some (hashAt (nTimeTx + BitVec.ofNat 32 (n + 1)))⟩
      else searchLoop nTimeTx nHashDrift hashAt hit
        (some (hashAt (nTimeTx + BitVec.ofNat 32 (n + 1)))) n := by
  simp only [searchLoop, tryTime_eq]

theorem searchLoop_found {last : Option Uint256} {n : ℕ}
    (h : (searchLoop nTimeTx nHashDrift hashAt hit last n).verdict = true) :
    ∃ k, 0 < k ∧ k ≤ n ∧ hit (hashAt (nTimeTx + BitVec.ofNat 32 k)) = true ∧
      searchLoop nTimeTx nHashDrift hashAt hit last n =
        ⟨true, nTimeTx + BitVec.ofNat 32 k, some (hashAt (nTimeTx + BitVec.ofNat 32 k))⟩ := by
  induction n generalizing last with
  | zero => exact absurd h Bool.false_ne_true
  | succ n ih =>
    rw [searchLoop_succ] at h ⊢
    by_cases hhit : hit (hashAt (nTimeTx + BitVec.ofNat 32 (n + 1))) = true
    · exact ⟨n + 1, n.succ_pos, le_rfl, hhit, if_pos hhit⟩
    · rw [if_neg hhit] at h ⊢
      obtain ⟨k, hk, hkn, hk'⟩ := ih h
      exact ⟨k, hk, hkn.trans n.le_succ, hk'⟩

theorem searchLoop_failed {last : Option Uint256} {n : ℕ}
    (h : (searchLoop nTimeTx nHashDrift hashAt hit last n).verdict = false) {k : ℕ}
    (hk : 0 < k) (hkn : k ≤ n) : hit (hashAt (nTimeTx + BitVec.ofNat 32 k)) = false := by
  induction n generalizing last with
  | zero => omega
  | succ n ih =>
    rw [searchLoop_succ] at h
    by_cases hhit : hit (hashAt (nTimeTx + BitVec.ofNat 32 (n + 1))) = true
    · rw [if_pos hhit] at h
      exact absurd h.symm Bool.false_ne_true
    · rw [if_neg hhit] at h
      obtain hrest | hlast := Nat.le_succ_iff.mp hkn
      · exact ih h hrest
      · rw [hlast]
        exact Bool.eq_false_iff.mpr hhit

end Loop

section Modes

variable {Hash : Bytes → Uint256} {mapBlockIndex : BlockMap} {c : CChain} {nBits : BitVec 32}
  {blockFrom : CBlock} {txPrev : CTransaction} {prevout : COutPoint}
  {nTimeTx nHashDrift : BitVec 32}

/-- An old coin stays old at every later time. -/
theorem Eligible.mono {t : BitVec 32} (h : Eligible blockFrom txPrev prevout nTimeTx)
    (ht : nTimeTx ≤ t) : Eligible blockFrom txPrev prevout t :=
  ⟨h.1, BitVec.le_trans h.2.1 ht, BitVec.le_trans h.2.2 ht⟩

/-- What the two modes share once the time checks have passed. -/
theorem checkStakeKernelHash_of_eligible (h : Eligible blockFrom txPrev prevout nTimeTx)
    (fCheck : Bool) :
    checkStakeKernelHash Hash mapBlockIndex c nBits blockFrom txPrev prevout nTimeTx nHashDrift
        fCheck =
      match getKernelStakeModifier mapBlockIndex c blockFrom.getHash with
      | none => some ⟨false, nTimeTx, none⟩
      | some m =>
        let hashAt (t : BitVec 32) := stakeHash Hash t m.nStakeModifier prevout blockFrom.nTime
        let hit (p : Uint256) := stakeTargetHit p
          (txPrev.vout.get ⟨prevout.n.toNat, h.1⟩).nValue (setCompact nBits)
        if fCheck then some ⟨hit (hashAt nTimeTx), nTimeTx, some (hashAt nTimeTx)⟩
        else some (searchLoop nTimeTx nHashDrift hashAt hit none nHashDrift.toNat) := by
  obtain ⟨hn, htime, hage⟩ := h
  have hout : txPrev.vout[prevout.n.toNat]? = some (txPrev.vout.get ⟨prevout.n.toNat, hn⟩) :=
    List.getElem?_eq_getElem hn
  cases hm : getKernelStakeModifier mapBlockIndex c blockFrom.getHash with
  | none =>
    simp only [checkStakeKernelHash, hout, BitVec.not_lt.mpr htime, BitVec.not_lt.mpr hage,
      if_false, hm]
  | some m =>
    simp only [checkStakeKernelHash, hout, BitVec.not_lt.mpr htime, BitVec.not_lt.mpr hage,
      if_false, hm]

theorem eligible_of_verdict {fCheck : Bool} {r : KernelResult}
    (h : checkStakeKernelHash Hash mapBlockIndex c nBits blockFrom txPrev prevout nTimeTx
      nHashDrift fCheck = some r) (hr : r.verdict = true) :
    Eligible blockFrom txPrev prevout nTimeTx := by
  unfold checkStakeKernelHash at h
  cases hout : txPrev.vout[prevout.n.toNat]? with
  | none => simp only [hout, reduceCtorEq] at h
  | some out =>
    have hn : prevout.n.toNat < txPrev.vout.length := (List.getElem?_eq_some_iff.mp hout).1
    simp only [hout] at h
    by_cases htime : nTimeTx < blockFrom.nTime
    · rw [if_pos htime, Option.some.injEq] at h
      rw [← h] at hr
      exact absurd hr Bool.false_ne_true
    · rw [if_neg htime] at h
      by_cases hage : nTimeTx < blockFrom.nTime + nStakeMinAge
      · rw [if_pos hage, Option.some.injEq] at h
        rw [← h] at hr
        exact absurd hr Bool.false_ne_true
      · exact ⟨hn, BitVec.not_lt.mp htime, BitVec.not_lt.mp hage⟩

/-- In a window that does not wrap, the times are the counts from its start. -/
theorem toNat_add_count {k : ℕ} (hfit : nTimeTx.toNat + nHashDrift.toNat < 2 ^ 32)
    (hk : k ≤ nHashDrift.toNat) :
    (nTimeTx + BitVec.ofNat 32 k).toNat = nTimeTx.toNat + k := by
  rw [BitVec.toNat_add, BitVec.toNat_ofNat, Nat.mod_eq_of_lt (a := k) (by omega),
    Nat.mod_eq_of_lt (by omega)]

/-- The time at a count of the window is later than its start. -/
theorem count_of_time {t : BitVec 32} (ht : nTimeTx.toNat < t.toNat) :
    t = nTimeTx + BitVec.ofNat 32 (t.toNat - nTimeTx.toNat) := by
  apply BitVec.eq_of_toNat_eq
  have := t.isLt
  rw [BitVec.toNat_add, BitVec.toNat_ofNat, Nat.mod_eq_of_lt (a := t.toNat - nTimeTx.toNat)
    (by omega), Nat.mod_eq_of_lt (by omega)]
  omega

theorem search_found_checks {r : KernelResult}
    (h : checkStakeKernelHash Hash mapBlockIndex c nBits blockFrom txPrev prevout nTimeTx
      nHashDrift false = some r) (hr : r.verdict = true)
    (hfit : nTimeTx.toNat + nHashDrift.toNat < 2 ^ 32) :
    nTimeTx.toNat < r.nTimeTx.toNat ∧
      r.nTimeTx.toNat ≤ nTimeTx.toNat + nHashDrift.toNat ∧
      ∀ drift, checkStakeKernelHash Hash mapBlockIndex c nBits blockFrom txPrev prevout r.nTimeTx
        drift true = some r := by
  have hstart := eligible_of_verdict h hr
  rw [checkStakeKernelHash_of_eligible hstart] at h
  cases hm : getKernelStakeModifier mapBlockIndex c blockFrom.getHash with
  | none =>
    rw [hm] at h
    rw [← Option.some.inj h] at hr
    exact absurd hr Bool.false_ne_true
  | some m =>
    rw [hm] at h
    simp only [Bool.false_eq_true, if_false, Option.some.injEq] at h
    rw [← h] at hr
    obtain ⟨k, hk, hkn, hhit, hloop⟩ := searchLoop_found hr
    have htime := toNat_add_count hfit hkn
    rw [hloop] at h
    have hlater : Eligible blockFrom txPrev prevout (nTimeTx + BitVec.ofNat 32 k) :=
      hstart.mono (BitVec.le_def.mpr (by omega))
    rw [← h]
    dsimp only
    refine ⟨by omega, by omega, fun drift => ?_⟩
    rw [checkStakeKernelHash_of_eligible hlater, hm]
    simp only [if_true]
    rw [hhit]

theorem search_failed_checks {r : KernelResult}
    (h : checkStakeKernelHash Hash mapBlockIndex c nBits blockFrom txPrev prevout nTimeTx
      nHashDrift false = some r) (hr : r.verdict = false)
    (hstart : Eligible blockFrom txPrev prevout nTimeTx) {t : BitVec 32}
    (ht : nTimeTx.toNat < t.toNat) (ht' : t.toNat ≤ nTimeTx.toNat + nHashDrift.toNat)
    (drift : BitVec 32) :
    ∃ p, checkStakeKernelHash Hash mapBlockIndex c nBits blockFrom txPrev prevout t drift true =
      some ⟨false, t, p⟩ := by
  have hlater : Eligible blockFrom txPrev prevout t := hstart.mono (BitVec.le_def.mpr (by omega))
  rw [checkStakeKernelHash_of_eligible hstart] at h
  rw [checkStakeKernelHash_of_eligible hlater]
  cases hm : getKernelStakeModifier mapBlockIndex c blockFrom.getHash with
  | none => exact ⟨none, rfl⟩
  | some m =>
    rw [hm] at h
    simp only [Bool.false_eq_true, if_false, Option.some.injEq] at h
    rw [← h] at hr
    have hmiss := searchLoop_failed hr (k := t.toNat - nTimeTx.toNat) (by omega) (by omega)
    rw [← count_of_time ht] at hmiss
    simp only [if_true]
    rw [hmiss]
    exact ⟨_, rfl⟩

/-- A kernel that the search finds passes the check at the time it leaves, with the same proof
hash, and this time lies in the window if the window ends before the last 32-bit time. If the
search fails although the coin is old enough at the start, no time of the window passes. -/
theorem search_refines_check {r : KernelResult}
    (h : checkStakeKernelHash Hash mapBlockIndex c nBits blockFrom txPrev prevout nTimeTx
      nHashDrift false = some r) :
    (r.verdict = true → nTimeTx.toNat + nHashDrift.toNat < 2 ^ 32 →
      nTimeTx.toNat < r.nTimeTx.toNat ∧
        r.nTimeTx.toNat ≤ nTimeTx.toNat + nHashDrift.toNat ∧
        checkStakeKernelHash Hash mapBlockIndex c nBits blockFrom txPrev prevout r.nTimeTx
          nHashDrift true = some r) ∧
    (r.verdict = false → Eligible blockFrom txPrev prevout nTimeTx →
      ∀ t : BitVec 32, nTimeTx.toNat < t.toNat →
        t.toNat ≤ nTimeTx.toNat + nHashDrift.toNat →
        ∃ p, checkStakeKernelHash Hash mapBlockIndex c nBits blockFrom txPrev prevout t
          nHashDrift true = some ⟨false, t, p⟩) := by
  refine ⟨fun hr hfit => ?_, fun hr hstart t ht ht' => ?_⟩
  · obtain ⟨hlow, hhigh, hcheck⟩ := search_found_checks h hr hfit
    exact ⟨hlow, hhigh, hcheck nHashDrift⟩
  · exact search_failed_checks h hr hstart ht ht' nHashDrift

end Modes

/-! A coin of the fork's long branch, staked under a hash function that hits every target. It
is old enough from time 3660 on. -/

def freeParams : Params := ⟨fun _ => 0, 0, 0⟩

def freeKernel (nTimeTx nHashDrift : BitVec 32) (fCheck : Bool) : Option KernelResult :=
  checkStakeKernelHash freeParams.Hash (indexBlocks freeParams forkBlocks)
    (CChain.ofTip (forkLongTip freeParams 1)) 0x1e0fffff (forkBlock 2 1 60)
    ((forkBlock 2 1 60).vtx.headD .null) ⟨BitVec.ofNat 256 1002, 0⟩ nTimeTx nHashDrift fCheck

theorem freeKernel_eligible {nTimeTx : BitVec 32} (h : 3660 ≤ nTimeTx.toNat) :
    Eligible (forkBlock 2 1 60) ((forkBlock 2 1 60).vtx.headD .null)
      ⟨BitVec.ofNat 256 1002, 0⟩ nTimeTx := by
  refine ⟨Nat.zero_lt_one, BitVec.le_def.mpr ?_, BitVec.le_def.mpr ?_⟩
  · exact le_trans (by decide) h
  · exact h

theorem freeKernel_of_old {nTimeTx : BitVec 32} (h : 3660 ≤ nTimeTx.toNat)
    {nHashDrift : BitVec 32} (hdrift : nHashDrift.toNat ≠ 0) :
    freeKernel nTimeTx nHashDrift true = some ⟨true, nTimeTx, some 0⟩ ∧
      freeKernel nTimeTx nHashDrift false = some ⟨true, nTimeTx + nHashDrift, some 0⟩ := by
  obtain ⟨modifier, hCoin, -⟩ := find_forkBlocks freeParams
  obtain ⟨n, hn⟩ := Nat.exists_eq_succ_of_ne_zero hdrift
  have hm : getKernelStakeModifier (indexBlocks freeParams forkBlocks)
      (CChain.ofTip (forkLongTip freeParams 1)) (forkBlock 2 1 60).getHash = _ :=
    getKernelStakeModifier_eq hCoin _
  rw [laterModifierBlock_forkLongTip] at hm
  have hcount : BitVec.ofNat 32 (n + 1) = nHashDrift := by
    rw [← Nat.succ_eq_add_one, ← hn, BitVec.ofNat_toNat, BitVec.setWidth_eq]
  have hhash (t : BitVec 32) (m : BitVec 64) (p : COutPoint) :
      stakeHash freeParams.Hash t m p (forkBlock 2 1 60).nTime = 0 := rfl
  have hvalue : (((forkBlock 2 1 60).vtx.headD .null).vout.get
      ⟨(0 : BitVec 32).toNat, (freeKernel_eligible h).1⟩).nValue = 100 * coin := rfl
  have hhit : stakeTargetHit 0 (100 * coin) (setCompact 0x1e0fffff) = true := by decide
  unfold freeKernel
  rw [checkStakeKernelHash_of_eligible (freeKernel_eligible h),
    checkStakeKernelHash_of_eligible (freeKernel_eligible h), hm]
  simp only [Option.map_some, if_true, Bool.false_eq_true, if_false, hn, Nat.succ_eq_add_one,
    searchLoop_succ, hcount, hhash, hvalue, hhit, and_self]

/-- A search from 3659 fails at once, though 3660 passes the check, and a search whose window
wraps leaves a time before the coin. -/
theorem search_misses_check :
    freeKernel 3659 45 false = some ⟨false, 3659, none⟩ ∧
    freeKernel 3660 45 true = some ⟨true, 3660, some 0⟩ ∧
    freeKernel 0xffffffff 10 false = some ⟨true, 9, some 0⟩ ∧
    freeKernel 9 10 true = some ⟨false, 9, none⟩ := by
  refine ⟨rfl, ?_, ?_, rfl⟩
  · exact (freeKernel_of_old (by decide) (by decide)).1
  · exact (freeKernel_of_old (by decide) (by decide)).2

theorem search_refines_check_old :
    freeKernel 3660 45 false = some ⟨true, 3705, some 0⟩ ∧
      freeKernel 3705 45 true = some ⟨true, 3705, some 0⟩ := by
  have h : freeKernel 3660 45 false = some ⟨true, 3705, some 0⟩ :=
    (freeKernel_of_old (by decide) (by decide)).2
  exact ⟨h, ((search_refines_check h).1 rfl (by decide)).2.2⟩

end Scrypta.Kernel
