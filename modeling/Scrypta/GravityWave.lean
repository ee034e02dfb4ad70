import Mathlib.Data.List.Induction
import Scrypta.BackedBlocks
import Scrypta.BaseUint

/-! The difficulty of a proof-of-work block. The average of the last targets and the new target are
computed in 256 bits, and come out as they would without a bound. -/

namespace Scrypta.ProofOfWork

open BaseUint

/-! The recurrence over all natural numbers. -/

/-- The number of targets so far and their average. -/
def averageStep (s : ℕ × ℕ) (t : ℕ) : ℕ × ℕ :=
  (s.1 + 1, if s.1 = 0 then t else (s.2 * (s.1 + 1) + t) / (s.1 + 2))

def average (ts : List ℕ) : ℕ := (ts.foldl averageStep (0, 0)).2

theorem count_averageStep (ts : List ℕ) (s : ℕ × ℕ) :
    (ts.foldl averageStep s).1 = s.1 + ts.length := by
  induction ts generalizing s with
  | nil => rfl
  | cons t ts ih =>
    rw [List.foldl_cons, ih, List.length_cons]
    change s.1 + 1 + ts.length = s.1 + (ts.length + 1)
    omega

theorem average_concat (ts : List ℕ) (t : ℕ) :
    average (ts ++ [t]) = if ts.length = 0 then t
      else (average ts * (ts.length + 1) + t) / (ts.length + 2) := by
  have hcount := count_averageStep ts (0, 0)
  rw [Nat.zero_add] at hcount
  unfold average
  rw [List.foldl_append, List.foldl_cons, List.foldl_nil, averageStep, hcount]

theorem average_le {ts : List ℕ} {hi : ℕ} (h : ∀ t ∈ ts, t ≤ hi) : average ts ≤ hi := by
  induction ts using List.reverseRecOn with
  | nil => exact Nat.zero_le _
  | append_singleton ts t ih =>
    have ht := h t List.mem_concat_self
    have hrest := ih fun t' ht' => h t' (List.mem_append_left _ ht')
    rw [average_concat]
    split
    · exact ht
    · have hmul : average ts * (ts.length + 1) ≤ hi * (ts.length + 1) :=
        Nat.mul_le_mul_right _ hrest
      apply Nat.div_le_of_le_mul
      calc average ts * (ts.length + 1) + t ≤ hi * (ts.length + 1) + hi := Nat.add_le_add hmul ht
        _ = (ts.length + 2) * hi := by ring

theorem le_average {ts : List ℕ} {lo : ℕ} (hne : ts ≠ []) (h : ∀ t ∈ ts, lo ≤ t) :
    lo ≤ average ts := by
  induction ts using List.reverseRecOn with
  | nil => exact absurd rfl hne
  | append_singleton ts t ih =>
    have ht := h t List.mem_concat_self
    rw [average_concat]
    split
    · exact ht
    · rename_i hlen
      have hrest := ih (fun hnil => hlen (hnil ▸ List.length_nil))
        fun t' ht' => h t' (List.mem_append_left _ ht')
      have hmul : lo * (ts.length + 1) ≤ average ts * (ts.length + 1) :=
        Nat.mul_le_mul_right _ hrest
      rw [Nat.le_div_iff_mul_le (Nat.succ_pos _)]
      calc lo * (ts.length + 2) = lo * (ts.length + 1) + lo := by ring
        _ ≤ average ts * (ts.length + 1) + t := Nat.add_le_add hmul ht

/-- The sum of the steps back in time. A step from time zero is not counted. -/
def timespan : List ℤ → ℤ
  | t :: t' :: ts => (if 0 < t then t - t' else 0) + timespan (t' :: ts)
  | _ => 0

/-! The scan of the blocks. -/

def target (b : CBlockIndex) : ℕ := (setCompact b.label.nBits).toNat

/-- The scan before the first block. -/
def Scan.start : Scan := ⟨0, 0, 0, 0⟩

theorem timespan_scan (bs : List CBlockIndex) (s : Scan) :
    (bs.foldl scanBlock s).nActualTimespan =
      s.nActualTimespan + timespan (s.lastBlockTime :: bs.map CBlockIndex.getBlockTime) := by
  induction bs generalizing s with
  | nil => exact (add_zero _).symm
  | cons b bs ih =>
    rw [List.foldl_cons, ih, List.map_cons, timespan]
    change (if 0 < s.lastBlockTime then s.nActualTimespan + (s.lastBlockTime - b.getBlockTime)
      else s.nActualTimespan) + _ = _
    split
    · change _ + timespan (b.getBlockTime :: _) = _
      omega
    · change _ + timespan (b.getBlockTime :: _) = _
      omega

theorem timespan_start (bs : List CBlockIndex) :
    (bs.foldl scanBlock Scan.start).nActualTimespan =
      timespan (bs.map CBlockIndex.getBlockTime) := by
  rw [timespan_scan]
  cases bs with
  | nil => rfl
  | cons b bs =>
    change 0 + timespan (0 :: b.getBlockTime :: bs.map CBlockIndex.getBlockTime) = _
    rw [timespan, if_neg (lt_irrefl _), zero_add, zero_add]
    rfl

variable {limit : ℕ}

/-- The products of the scan fit as long as the limit has twenty bits to spare. -/
theorem average_fits (hlimit : limit ≤ 2 ^ 236) {avg t n : ℕ} (havg : avg ≤ limit) (ht : t ≤ limit)
    (hn : n ≤ 24) : avg * n + t < 2 ^ 256 := by
  have hmul : avg * n ≤ 2 ^ 236 * 24 := Nat.mul_le_mul (havg.trans hlimit) hn
  omega

/-- One block more. -/
theorem average_scanBlock (hlimit : limit ≤ 2 ^ 236) {s : Scan} {b : CBlockIndex} {n : ℕ}
    (hcount : s.countBlocks = n) (hn : n < 24) (havg : s.pastDifficultyAverage.toNat ≤ limit)
    (ht : target b ≤ limit) :
    (scanBlock s b).pastDifficultyAverage.toNat = if n = 0 then target b
      else (s.pastDifficultyAverage.toNat * (n + 1) + target b) / (n + 2) := by
  have hpast : (n : ℤ) + 1 ≤ pastBlocks := by
    change (n : ℤ) + 1 ≤ 24
    omega
  unfold scanBlock
  dsimp only
  rw [hcount, if_pos hpast]
  by_cases hzero : n = 0
  · rw [if_pos (by omega), if_pos hzero]
    rfl
  · have hfits := average_fits hlimit havg ht (Nat.succ_le_of_lt hn)
    have hfactor : ((n : ℤ) + 1).toNat % 2 ^ 32 = n + 1 := by omega
    have hdivisor : ((n : ℤ) + 1 + 1).toNat = n + 2 := by omega
    have htimes : (times s.pastDifficultyAverage (n + 1)).toNat =
        s.pastDifficultyAverage.toNat * (n + 1) := by
      rw [toNat_times _ (by omega), hfactor]
      exact Nat.mod_eq_of_lt (lt_of_le_of_lt (Nat.le_add_right _ _) hfits)
    have hsum : (times s.pastDifficultyAverage (n + 1) + setCompact b.label.nBits).toNat =
        s.pastDifficultyAverage.toNat * (n + 1) + target b := by
      rw [BitVec.toNat_add, htimes]
      exact Nat.mod_eq_of_lt hfits
    rw [if_neg (by omega), if_neg hzero, toNat_dividedBy _ (by omega) (by omega), hsum, hdivisor]

/-- The 256-bit average is the unbounded one after every block. -/
theorem average_scan (hlimit : limit ≤ 2 ^ 236) {bs : List CBlockIndex} (hlen : bs.length ≤ 24)
    (ht : ∀ b ∈ bs, target b ≤ limit) :
    (bs.foldl scanBlock Scan.start).countBlocks = bs.length ∧
      (bs.foldl scanBlock Scan.start).pastDifficultyAverage.toNat = average (bs.map target) := by
  induction bs using List.reverseRecOn with
  | nil => exact ⟨rfl, rfl⟩
  | append_singleton bs b ih =>
    rw [List.length_append, List.length_singleton] at hlen
    have hrest : ∀ b' ∈ bs, target b' ≤ limit := fun b' hb' => ht b' (List.mem_append_left _ hb')
    obtain ⟨hcount, havg⟩ := ih (by omega) hrest
    have hle : average (bs.map target) ≤ limit := by
      apply average_le
      intro t htmem
      obtain ⟨b', hb', rfl⟩ := List.mem_map.1 htmem
      exact hrest b' hb'
    have hstep := average_scanBlock hlimit hcount (by omega) (havg ▸ hle)
      (ht b List.mem_concat_self)
    rw [List.foldl_append, List.foldl_cons, List.foldl_nil]
    constructor
    · change (bs.foldl scanBlock Scan.start).countBlocks + 1 = _
      rw [hcount, List.length_append, List.length_singleton]
      rfl
    · rw [hstep, havg, List.map_append, List.map_singleton, average_concat, List.length_map]

/-! The window. -/

theorem take_takeWhile_line {b : CBlockIndex} {k : ℕ} (h : k ≤ b.height) :
    (b.line.takeWhile fun b : CBlockIndex => decide (0 < b.height)).take k = b.line.take k := by
  induction b generalizing k with
  | root a =>
    obtain rfl : k = 0 := Nat.le_zero.1 h
    rw [List.take_zero, List.take_zero]
  | child p a ih =>
    cases k with
    | zero => rw [List.take_zero, List.take_zero]
    | succ k =>
      have hpos : (fun b : CBlockIndex => decide (0 < b.height)) (.child p a) = true :=
        decide_eq_true (Nat.succ_pos _)
      have hwhile : (Lineage.child p a).line.takeWhile (fun b => decide (0 < b.height)) =
          .child p a :: p.line.takeWhile fun b => decide (0 < b.height) :=
        List.takeWhile_cons_of_pos hpos
      rw [hwhile, Lineage.line, List.take_succ_cons, List.take_succ_cons,
        ih (Nat.le_of_succ_le_succ h)]

theorem scanned_eq {b : CBlockIndex} (h : 24 ≤ b.height) : scanned b = b.line.take 24 :=
  take_takeWhile_line h

theorem length_scanned {b : CBlockIndex} (h : 24 ≤ b.height) : (scanned b).length = 24 := by
  rw [scanned_eq h, List.length_take, Lineage.length_line]
  omega

/-- The time that the blocks of the window took, within a third and three times what they should
have taken. -/
def clampedTimespan (nTargetTimespan : ℤ) (times : List ℤ) : ℤ :=
  min (max (timespan times) (nTargetTimespan.tdiv 3)) (nTargetTimespan * 3)

/-- The new target before it is put into compact form. -/
def waveTarget (limit : ℕ) (nTargetTimespan : ℤ) (window : List CBlockIndex) : ℕ :=
  min limit (average (window.map target) *
    (clampedTimespan nTargetTimespan (window.map CBlockIndex.getBlockTime)).toNat /
      nTargetTimespan.toNat)

theorem clampedTimespan_bounds (times : List ℤ) :
    480 ≤ clampedTimespan 1440 times ∧ clampedTimespan 1440 times ≤ 4320 := by
  have hthird : (1440 : ℤ).tdiv 3 = 480 := by decide
  unfold clampedTimespan
  rw [hthird]
  omega

/-- The last product. -/
theorem wave_fits {avg : ℕ} (havg : avg ≤ 2 ^ 236) (times : List ℤ) :
    avg * (clampedTimespan 1440 times).toNat < 2 ^ 256 := by
  have hbounds := clampedTimespan_bounds times
  have hle : (clampedTimespan 1440 times).toNat ≤ 4320 := by omega
  have hmul : avg * (clampedTimespan 1440 times).toNat ≤ 2 ^ 236 * 4320 := Nat.mul_le_mul havg hle
  omega

theorem target_le_of_window {window : List CBlockIndex} (h : ∀ b ∈ window, target b ≤ limit) :
    average (window.map target) ≤ limit := by
  apply average_le
  intro t ht
  obtain ⟨b, hb, rfl⟩ := List.mem_map.1 ht
  exact h b hb

/-- The function computes the new target of the unbounded integers. -/
theorem getNextWorkRequired_wave {par : Params} (hlimit : par.bnProofOfWorkLimit.toNat ≤ 2 ^ 236)
    (hspacing : par.nTargetSpacing = 60) {pindexLast : CBlockIndex}
    (hlong : 24 ≤ pindexLast.height) (hpow : pindexLast.height ≤ par.nLastPOWBlock)
    (ht : ∀ b ∈ scanned pindexLast, target b ≤ par.bnProofOfWorkLimit.toNat) :
    getNextWorkRequired par pindexLast = getCompact (BitVec.ofNat 256
      (waveTarget par.bnProofOfWorkLimit.toNat 1440 (scanned pindexLast))) := by
  have hlen := length_scanned hlong
  obtain ⟨hcount, havg⟩ := average_scan hlimit hlen.le ht
  have hspan := timespan_start (scanned pindexLast)
  have hpast : ¬(pindexLast.height = 0 ∨ (pindexLast.height : ℤ) < pastBlocks) := by
    have hvalue : pastBlocks = 24 := rfl
    omega
  unfold getNextWorkRequired
  rw [if_neg hpast, if_neg (not_lt.2 hpow)]
  have hstart : (⟨0, 0, 0, 0⟩ : Scan) = Scan.start := rfl
  dsimp only
  rw [hstart]
  generalize (scanned pindexLast).foldl scanBlock Scan.start = s at hcount havg hspan ⊢
  have htimespan : s.countBlocks * par.nTargetSpacing = 1440 := by
    rw [hcount, hlen, hspacing]
    rfl
  rw [htimespan, hspan]
  have hclamp : min (max (timespan ((scanned pindexLast).map CBlockIndex.getBlockTime))
      ((1440 : ℤ).tdiv 3)) (1440 * 3) =
      clampedTimespan 1440 ((scanned pindexLast).map CBlockIndex.getBlockTime) := rfl
  rw [hclamp]
  have hbounds := clampedTimespan_bounds ((scanned pindexLast).map CBlockIndex.getBlockTime)
  have hfits := wave_fits ((target_le_of_window ht).trans hlimit)
    ((scanned pindexLast).map CBlockIndex.getBlockTime)
  unfold waveTarget
  generalize clampedTimespan 1440 ((scanned pindexLast).map CBlockIndex.getBlockTime) = span
    at hbounds hfits ⊢
  have hfactor : span.toNat % 2 ^ 32 = span.toNat := by omega
  have hnew : (dividedBy (times s.pastDifficultyAverage span) 1440).toNat =
      average ((scanned pindexLast).map target) * span.toNat / 1440 := by
    rw [toNat_dividedBy _ (by decide) (by decide), toNat_times _ (by omega), havg, hfactor,
      Nat.mod_eq_of_lt hfits]
    rfl
  apply congrArg getCompact
  apply BitVec.eq_of_toNat_eq
  have hmin := par.bnProofOfWorkLimit.isLt
  rw [BitVec.toNat_ofNat, Nat.mod_eq_of_lt (lt_of_le_of_lt (min_le_left _ _) hmin)]
  split
  · rename_i hlt
    rw [BitVec.lt_def, hnew] at hlt
    exact (min_eq_left hlt.le).symm
  · rename_i hge
    rw [BitVec.not_lt, BitVec.le_def, hnew] at hge
    rw [hnew]
    exact (min_eq_right hge).symm

/-- The average of the last targets. -/
def pastAverage (pindexLast : CBlockIndex) : ℕ :=
  ((scanned pindexLast).foldl scanBlock Scan.start).pastDifficultyAverage.toNat

/-- How the difficulty follows the last 24 blocks. -/
structure Wave (par : Params) (pindexLast : CBlockIndex) : Prop where
  between : ∀ lo hi, (∀ b ∈ pindexLast.line.take 24, lo ≤ target b ∧ target b ≤ hi) →
    lo ≤ pastAverage pindexLast ∧ pastAverage pindexLast ≤ hi
  exact : ∀ window, window <+: pindexLast.line.take 24 →
    (window.foldl scanBlock Scan.start).pastDifficultyAverage.toNat = average (window.map target)
  fits : ∀ window b, window ++ [b] <+: pindexLast.line.take 24 →
    average (window.map target) * (window.length + 1) + target b < 2 ^ 256
  product_fits : pastAverage pindexLast * (clampedTimespan 1440
    ((pindexLast.line.take 24).map CBlockIndex.getBlockTime)).toNat < 2 ^ 256
  result : getNextWorkRequired par pindexLast = getCompact (BitVec.ofNat 256
    (waveTarget par.bnProofOfWorkLimit.toNat 1440 (pindexLast.line.take 24)))
  pos : 3 ≤ pastAverage pindexLast →
    0 < waveTarget par.bnProofOfWorkLimit.toNat 1440 (pindexLast.line.take 24)

theorem getNextWorkRequired_in_range {par : Params}
    (hlimit : par.bnProofOfWorkLimit.toNat ≤ 2 ^ 236) (hspacing : par.nTargetSpacing = 60)
    {pindexLast : CBlockIndex} (hlong : 24 ≤ pindexLast.height)
    (hpow : pindexLast.height ≤ par.nLastPOWBlock)
    (ht : ∀ b ∈ pindexLast.line.take 24, 1 ≤ target b ∧
      target b ≤ par.bnProofOfWorkLimit.toNat) : Wave par pindexLast := by
  have hwindow := scanned_eq hlong
  have hlen := length_scanned hlong
  rw [hwindow] at hlen
  have hle : ∀ b ∈ pindexLast.line.take 24, target b ≤ par.bnProofOfWorkLimit.toNat :=
    fun b hb => (ht b hb).2
  have hpast : pastAverage pindexLast = average ((pindexLast.line.take 24).map target) := by
    unfold pastAverage
    rw [hwindow]
    exact (average_scan hlimit hlen.le hle).2
  have havg := target_le_of_window hle
  have hbounds := clampedTimespan_bounds ((pindexLast.line.take 24).map CBlockIndex.getBlockTime)
  refine ⟨fun lo hi h => ?_, fun window hpre => ?_, fun window b hpre => ?_, ?_, ?_, fun h => ?_⟩
  · rw [hpast]
    refine ⟨le_average (fun hnil => ?_) fun t htm => ?_, target_le_of_window fun b hb => (h b hb).2⟩
    · rw [List.map_eq_nil_iff] at hnil
      rw [hnil] at hlen
      cases hlen
    · obtain ⟨b, hb, rfl⟩ := List.mem_map.1 htm
      exact (h b hb).1
  · exact (average_scan hlimit (hpre.length_le.trans_eq hlen) fun b hb => hle b (hpre.subset hb)).2
  · have hshort := hpre.length_le
    rw [hlen, List.length_append, List.length_singleton] at hshort
    refine average_fits hlimit (target_le_of_window fun b' hb' => ?_) ?_ hshort
    · exact hle b' (hpre.subset (List.mem_append_left _ hb'))
    · exact hle b (hpre.subset List.mem_concat_self)
  · rw [hpast]
    exact wave_fits (havg.trans hlimit) _
  · rw [getNextWorkRequired_wave hlimit hspacing hlong hpow (hwindow ▸ hle), hwindow]
  · rw [hpast] at h
    refine lt_min (lt_of_lt_of_le (Nat.succ_pos 2) (h.trans havg)) ?_
    have hspan : 480 ≤ (clampedTimespan 1440
        ((pindexLast.line.take 24).map CBlockIndex.getBlockTime)).toNat := by omega
    have hmul := Nat.mul_le_mul h hspan
    exact Nat.div_pos hmul (by decide)

theorem nBits_plainChain (n : ℕ) :
    ∀ b ∈ (Validation.plainChain n).line, b.label.nBits = 0x1e0ffff0 := by
  induction n with
  | zero =>
    intro b hb
    rw [List.mem_singleton.1 hb]
    rfl
  | succ n ih =>
    intro b hb
    rcases List.mem_cons.1 hb with rfl | hb
    · rfl
    · exact ih b hb

theorem getNextWorkRequired_in_range_plain : Wave Backing.mainWork (Validation.plainChain 24) :=
  getNextWorkRequired_in_range (by decide) rfl (by decide) (by decide) fun b hb => by
    unfold target
    rw [nBits_plainChain 24 b (List.mem_of_mem_take hb)]
    decide

end Scrypta.ProofOfWork
