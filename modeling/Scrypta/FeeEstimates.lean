import Scrypta.Undo
import Scrypta.Toolkit.OrderStatistics
import Scrypta.Toolkit.Ring
import Scrypta.Toolkit.Runs

/-! The estimator of fees and priorities, with the sorted copies of its samples and its file. -/

namespace Scrypta.FeeEstimates

open OrderStatistics (kth IsKthHighest)

/-- A fee rate is known by its fee for 1000 bytes. -/
abbrev CFeeRate := CAmount

namespace CFeeRate

/-- The division is one of unsigned numbers. -/
def ofPaid (nFeePaid : CAmount) (nSize : ℕ) : CFeeRate :=
  if 0 < nSize then toInt64 (nFeePaid * 1000 % 2 ^ 64 / nSize) else 0

def getFee (feeRate : CFeeRate) (nSize : ℕ) : CAmount :=
  let nFee := toInt64 (feeRate * nSize % 2 ^ 64 / 1000)
  if nFee = 0 ∧ 0 < feeRate then feeRate else nFee

def getFeePerK (feeRate : CFeeRate) : CAmount := getFee feeRate 1000

end CFeeRate

/-- A double by its bits. -/
abbrev Double := BitVec 64

namespace Double

def magnitude (d : Double) : ℕ := d.toNat % 2 ^ 63

def isNaN (d : Double) : Bool := 0x7ff0000000000000 < d.magnitude

/-- `0 <= d`, which -0 satisfies -/
def nonneg (d : Double) : Bool := !d.isNaN && (d.toNat < 2 ^ 63 || d.magnitude == 0)

/-- The order of numbers that are not negative. -/
def ge (a b : Double) : Prop := b.magnitude ≤ a.magnitude

instance : DecidableRel ge := fun a b => inferInstanceAs (Decidable (b.magnitude ≤ a.magnitude))

end Double

/-- `AllowFreeThreshold()` is 230400000. -/
def allowFree (dPriority : Double) : Bool :=
  !dPriority.isNaN && dPriority.toNat < 2 ^ 63 && 0x41ab774000000000 < dPriority.toNat

/-- The samples of a bucket, the last hundred of each kind. -/
structure CBlockAverage where
  feeSamples : List CFeeRate
  prioritySamples : List Double
  feeBound : feeSamples.length ≤ 100
  priorityBound : prioritySamples.length ≤ 100

namespace CBlockAverage

def new : CBlockAverage := ⟨[], [], by decide, by decide⟩

def recordFee (avg : CBlockAverage) (feeRate : CFeeRate) : CBlockAverage :=
  { avg with
    feeSamples := Ring.push 100 avg.feeSamples feeRate
    feeBound := Ring.length_push_le (by decide) avg.feeBound feeRate }

def recordPriority (avg : CBlockAverage) (priority : Double) : CBlockAverage :=
  { avg with
    prioritySamples := Ring.push 100 avg.prioritySamples priority
    priorityBound := Ring.length_push_le (by decide) avg.priorityBound priority }

def areSaneFee (minRelayFee fee : CFeeRate) : Bool :=
  !(fee < 0 || toInt64 (minRelayFee.getFeePerK * 10000) < fee.getFeePerK)

/-- The buffers of a new bucket after the samples have been inserted at their ends. -/
def ofSamples (vecFee : List CFeeRate) (vecPriority : List Double) : CBlockAverage where
  feeSamples := vecFee.rtake 100
  prioritySamples := vecPriority.rtake 100
  feeBound := Ring.length_rtake_le 100 vecFee
  priorityBound := Ring.length_rtake_le 100 vecPriority

def writeFee (fee : CFeeRate) : Bytes := LittleEndian.encode 8 (fee % 2 ^ 64).toNat

def writeDouble (d : Double) : Bytes := LittleEndian.encode 8 d.toNat

/-- A number of so many bytes. -/
def readWord (width : ℕ) (bs : Bytes) : Option (ℕ × Bytes) := CompactSize.readLong width 0 bs

def readFee (bs : Bytes) : Option (CFeeRate × Bytes) :=
  (readWord 8 bs).map fun r => (toInt64 r.1, r.2)

def readDouble (bs : Bytes) : Option (Double × Bytes) :=
  (readWord 8 bs).map fun r => (BitVec.ofNat 64 r.1, r.2)

def write (avg : CBlockAverage) : Bytes :=
  CompactSize.writeVector writeFee avg.feeSamples ++
    CompactSize.writeVector writeDouble avg.prioritySamples

/-- `none` is a corrupt file. -/
def read (minRelayFee : CFeeRate) (bs : Bytes) : Option (CBlockAverage × Bytes) :=
  match CompactSize.readVector Undo.maxSize readFee bs with
  | none => none
  | some (vecFee, bs) =>
    if vecFee.all (areSaneFee minRelayFee) then
      match CompactSize.readVector Undo.maxSize readDouble bs with
      | none => none
      | some (vecPriority, bs) =>
        if vecPriority.all Double.nonneg then some (ofSamples vecFee vecPriority, bs) else none
    else none

end CBlockAverage

/-- What the estimator sees of a transaction: the priority is the one it came in with. -/
structure CTxMemPoolEntry where
  nHeight : ℤ
  nFee : CAmount
  nTxSize : ℕ
  dPriority : Double

/-- An outcome of `random_shuffle`. -/
structure Shuffle where
  run : List CTxMemPoolEntry → List CTxMemPoolEntry
  perm : ∀ e, (run e).Perm e

/-- The estimate for so many blocks, and the sorted samples: they are sorted only where there is no
copy of them. -/
def estimate {T : Type*} (ge : T → T → Prop) [DecidableRel ge] (buckets : List (List T))
    (missing : T) (sorted : List T) (nBlocksToConfirm : ℤ) : T × List T :=
  let n := nBlocksToConfirm - 1
  if n < 0 ∨ buckets.length ≤ n then (missing, sorted)
  else
    let sorted := if sorted.length = 0 then buckets.flatten.insertionSort ge else sorted
    if sorted.length < 11 then (missing, sorted)
    else
      let nBucketSize := (buckets.getD n.toNat []).length
      let nPrevSize := ((buckets.take n.toNat).map List.length).sum
      let index := min (nPrevSize + nBucketSize / 2) (sorted.length - 1)
      (sorted.getD index missing, sorted)

structure CMinerPolicyEstimator where
  history : List CBlockAverage
  sortedFeeSamples : List CFeeRate
  sortedPrioritySamples : List Double
  nBestSeenHeight : ℤ
  entries : 1 ≤ history.length ∧ history.length ≤ 10000

namespace CMinerPolicyEstimator

def new (nEntries : ℕ) (h : 1 ≤ nEntries ∧ nEntries ≤ 10000) : CMinerPolicyEstimator where
  history := List.replicate nEntries .new
  sortedFeeSamples := []
  sortedPrioritySamples := []
  nBestSeenHeight := 0
  entries := by rwa [List.length_replicate]

def estimateFee (est : CMinerPolicyEstimator) (nBlocksToConfirm : ℤ) :
    CFeeRate × CMinerPolicyEstimator :=
  let r := estimate (· ≥ ·) (est.history.map CBlockAverage.feeSamples) 0 est.sortedFeeSamples
    nBlocksToConfirm
  (r.1, { est with sortedFeeSamples := r.2 })

/-- The bits of -1 are returned where there is no estimate. -/
def estimatePriority (est : CMinerPolicyEstimator) (nBlocksToConfirm : ℤ) :
    Double × CMinerPolicyEstimator :=
  let r := estimate Double.ge (est.history.map CBlockAverage.prioritySamples) 0xbff0000000000000
    est.sortedPrioritySamples nBlocksToConfirm
  (r.1, { est with sortedPrioritySamples := r.2 })

/-- The bucket of a transaction, the last one for all that took longer; none where the chain has
become shorter. -/
def bucketOf (size : ℕ) (nBlockHeight : ℤ) (entry : CTxMemPoolEntry) : Option ℕ :=
  let delta := toInt32 (nBlockHeight - entry.nHeight)
  if delta ≤ 0 then none
  else some (if size ≤ delta - 1 then size - 1 else (delta - 1).toNat)

def seenTxConfirm (minRelayFee : CFeeRate) (nBlocksAgo : ℕ) (history : List CBlockAverage)
    (entry : CTxMemPoolEntry) : List CBlockAverage :=
  let feeRate := CFeeRate.ofPaid entry.nFee entry.nTxSize
  let nBlocksTruncated := min nBlocksAgo (history.length - 1)
  let sufficientFee := decide (minRelayFee < feeRate)
  let sufficientPriority := allowFree entry.dPriority
  if sufficientFee && !sufficientPriority && CBlockAverage.areSaneFee minRelayFee feeRate then
    history.modify nBlocksTruncated (·.recordFee feeRate)
  else if sufficientPriority && !sufficientFee && entry.dPriority.nonneg then
    history.modify nBlocksTruncated (·.recordPriority entry.dPriority)
  else history

/-- At most ten random entries of a bucket. -/
def atMostTen (shuffle : Shuffle) (e : List CTxMemPoolEntry) : List CTxMemPoolEntry :=
  if 10 < e.length then (shuffle.run e).take 10 else e

def recordBucket (minRelayFee : CFeeRate) (entries : List CTxMemPoolEntry) (nBlockHeight : ℤ)
    (shuffle : ℕ → Shuffle) (history : List CBlockAverage) (i : ℕ) : List CBlockAverage :=
  (atMostTen (shuffle i)
    (entries.filter fun entry => bucketOf history.length nBlockHeight entry == some i)).foldl
      (seenTxConfirm minRelayFee i) history

theorem length_seenTxConfirm (minRelayFee : CFeeRate) (i : ℕ) (history : List CBlockAverage)
    (entry : CTxMemPoolEntry) :
    (seenTxConfirm minRelayFee i history entry).length = history.length := by
  simp only [seenTxConfirm]
  split_ifs
  · exact List.length_modify _ _ _
  · exact List.length_modify _ _ _
  · rfl

theorem length_recordBucket (minRelayFee : CFeeRate) (entries : List CTxMemPoolEntry)
    (nBlockHeight : ℤ) (shuffle : ℕ → Shuffle) (history : List CBlockAverage) (i : ℕ) :
    (recordBucket minRelayFee entries nBlockHeight shuffle history i).length = history.length :=
  List.foldlRecOn (motive := fun h => h.length = history.length) _ _ rfl
    fun h hlen entry _ => (length_seenTxConfirm minRelayFee i h entry).trans hlen

/-- The history after a block. -/
def recordBlock (minRelayFee : CFeeRate) (entries : List CTxMemPoolEntry) (nBlockHeight : ℤ)
    (shuffle : ℕ → Shuffle) (history : List CBlockAverage) : List CBlockAverage :=
  (List.range history.length).foldl (recordBucket minRelayFee entries nBlockHeight shuffle) history

theorem length_recordBlock (minRelayFee : CFeeRate) (entries : List CTxMemPoolEntry)
    (nBlockHeight : ℤ) (shuffle : ℕ → Shuffle) (history : List CBlockAverage) :
    (recordBlock minRelayFee entries nBlockHeight shuffle history).length = history.length :=
  List.foldlRecOn (motive := fun h => h.length = history.length) _ _ rfl
    fun h hlen i _ => (length_recordBucket minRelayFee entries nBlockHeight shuffle h i).trans hlen

/-- The line of the log for a bucket asks for both of its estimates. -/
def logBucket (est : CMinerPolicyEstimator) (i : ℕ) : CMinerPolicyEstimator :=
  let avg := est.history.getD i .new
  if 0 < avg.feeSamples.length + avg.prioritySamples.length then
    ((est.estimateFee (i + 1)).2.estimatePriority (i + 1)).2
  else est

def seenBlock (minRelayFee : CFeeRate) (est : CMinerPolicyEstimator)
    (entries : List CTxMemPoolEntry) (nBlockHeight : ℤ) (shuffle : ℕ → Shuffle) :
    CMinerPolicyEstimator :=
  if nBlockHeight ≤ est.nBestSeenHeight then est
  else
    let est : CMinerPolicyEstimator :=
      { history := recordBlock minRelayFee entries nBlockHeight shuffle est.history
        sortedFeeSamples := []
        sortedPrioritySamples := []
        nBestSeenHeight := nBlockHeight
        entries := by rw [length_recordBlock]; exact est.entries }
    (List.range est.history.length).foldl logBucket est

def write (est : CMinerPolicyEstimator) : Bytes :=
  LittleEndian.encode 4 (est.nBestSeenHeight % 2 ^ 32).toNat ++
    LittleEndian.encode 8 est.history.length ++ est.history.flatMap CBlockAverage.write

/-- The height and the history in a file. -/
def readFile (minRelayFee : CFeeRate) (bs : Bytes) :
    Option ((ℤ × List CBlockAverage) × Bytes) :=
  match CBlockAverage.readWord 4 bs with
  | none => none
  | some (nFileBestSeenHeight, bs) =>
    match CBlockAverage.readWord 8 bs with
    | none => none
    | some (numEntries, bs) =>
      if numEntries ≤ 0 ∨ 10000 < numEntries then none
      else
        (CompactSize.readMany (CBlockAverage.read minRelayFee) numEntries bs).map fun r =>
          ((toInt32 nFileBestSeenHeight, r.1), r.2)

theorem length_readMany {α : Type*} {readOne : List UInt8 → Option (α × List UInt8)} {n : ℕ}
    {bs bs' : List UInt8} {as : List α}
    (h : CompactSize.readMany readOne n bs = some (as, bs')) : as.length = n := by
  induction n generalizing bs as with
  | zero =>
    cases h
    rfl
  | succ n ih =>
    rw [CompactSize.readMany] at h
    split at h
    · cases h
    · split at h
      · cases h
      · next hmany =>
        cases h
        exact congrArg (· + 1) (ih hmany)

theorem length_readFile {minRelayFee : CFeeRate} {bs bs' : Bytes} {height : ℤ}
    {history : List CBlockAverage}
    (h : readFile minRelayFee bs = some ((height, history), bs')) :
    1 ≤ history.length ∧ history.length ≤ 10000 := by
  unfold readFile at h
  split at h
  · cases h
  · split at h
    · cases h
    · split at h
      · cases h
      · next hentries =>
        obtain ⟨⟨as, bs''⟩, hmany, heq⟩ := Option.map_eq_some_iff.1 h
        have hhistory : as = history := congrArg (fun r => r.1.2) heq
        rw [← hhistory, length_readMany hmany]
        omega

/-- A file that cannot be read leaves the estimator as it is. -/
def read (minRelayFee : CFeeRate) (est : CMinerPolicyEstimator) (bs : Bytes) :
    CMinerPolicyEstimator :=
  match h : readFile minRelayFee bs with
  | none => est
  | some ((nFileBestSeenHeight, fileHistory), _) =>
    { est with
      nBestSeenHeight := nFileBestSeenHeight
      history := fileHistory
      entries := length_readFile h }

/-- What the estimator is called for. -/
inductive Event where
  | seenBlock (entries : List CTxMemPoolEntry) (nBlockHeight : ℤ) (shuffle : ℕ → Shuffle)
  | read (bs : Bytes)
  | estimateFee (nBlocksToConfirm : ℤ)
  | estimatePriority (nBlocksToConfirm : ℤ)

def step (minRelayFee : CFeeRate) (est : CMinerPolicyEstimator) : Event → CMinerPolicyEstimator
  | .seenBlock entries nBlockHeight shuffle =>
    est.seenBlock minRelayFee entries nBlockHeight shuffle
  | .read bs => est.read minRelayFee bs
  | .estimateFee n => (est.estimateFee n).2
  | .estimatePriority n => (est.estimatePriority n).2

end CMinerPolicyEstimator

/-! Estimates from a sorted copy. -/

section Estimate

variable {T : Type*} {r : T → T → Prop} [DecidableRel r] {buckets : List (List T)} {missing : T}
  {sorted : List T} {n n' : ℤ}

/-- The copy is of these samples, if there is one. -/
def Held (r : T → T → Prop) [DecidableRel r] (buckets : List (List T)) (sorted : List T) : Prop :=
  sorted = [] ∨ sorted = buckets.flatten.insertionSort r

/-- All samples of the buckets before, and half of those of the bucket itself. -/
def rankOf (buckets : List (List T)) (n : ℤ) : ℕ :=
  min (((buckets.take (n - 1).toNat).map List.length).sum +
    (buckets.getD (n - 1).toNat []).length / 2) (buckets.flatten.length - 1)

theorem Held.refill (h : Held r buckets sorted) :
    (if sorted.length = 0 then buckets.flatten.insertionSort r else sorted) =
      buckets.flatten.insertionSort r := by
  split
  · rfl
  · next hne =>
    exact h.resolve_left fun hnil => hne (hnil ▸ rfl)

theorem Held.estimate (h : Held r buckets sorted) (missing : T) (n : ℤ) :
    Held r buckets (estimate r buckets missing sorted n).2 := by
  unfold FeeEstimates.estimate
  dsimp only
  rw [h.refill]
  split_ifs
  · exact h
  · exact Or.inr rfl
  · exact Or.inr rfl

theorem estimate_of_out (hn : n < 1 ∨ buckets.length < n) :
    (estimate r buckets missing sorted n).1 = missing := by
  unfold estimate
  dsimp only
  rw [if_pos (by omega)]

theorem Held.estimate_of_few (h : Held r buckets sorted) (hfew : buckets.flatten.length < 11) :
    (FeeEstimates.estimate r buckets missing sorted n).1 = missing := by
  unfold FeeEstimates.estimate
  dsimp only
  rw [h.refill, List.length_insertionSort, if_pos hfew]
  split_ifs
  · rfl
  · rfl

theorem Held.kth_estimate (h : Held r buckets sorted) (hlow : 1 ≤ n) (hhigh : n ≤ buckets.length)
    (hmany : 11 ≤ buckets.flatten.length) : kth r buckets.flatten (rankOf buckets n) =
      some (FeeEstimates.estimate r buckets missing sorted n).1 := by
  have hrank : rankOf buckets n < (buckets.flatten.insertionSort r).length := by
    rw [List.length_insertionSort, rankOf]
    omega
  unfold FeeEstimates.estimate
  dsimp only
  rw [h.refill, List.length_insertionSort, if_neg (by omega), if_neg (by omega),
    List.getD_eq_getElem?_getD]
  change kth r buckets.flatten (rankOf buckets n) =
    some ((kth r buckets.flatten (rankOf buckets n)).getD missing)
  rw [kth, List.getElem?_eq_getElem hrank, Option.getD_some]

/-- A copy does not change what is estimated. -/
theorem Held.estimate_eq (h : Held r buckets sorted) {sorted' : List T}
    (h' : Held r buckets sorted') (missing : T) (n : ℤ) :
    (FeeEstimates.estimate r buckets missing sorted n).1 =
      (FeeEstimates.estimate r buckets missing sorted' n).1 := by
  by_cases hout : n < 1 ∨ buckets.length < n
  · rw [estimate_of_out hout, estimate_of_out hout]
  · by_cases hfew : buckets.flatten.length < 11
    · rw [h.estimate_of_few hfew, h'.estimate_of_few hfew]
    · refine Option.some.inj ?_
      rw [← h.kth_estimate (by omega) (by omega) (by omega),
        ← h'.kth_estimate (by omega) (by omega) (by omega)]

theorem sum_take_mono (l : List ℕ) {i j : ℕ} (hij : i ≤ j) : (l.take i).sum ≤ (l.take j).sum := by
  obtain ⟨k, rfl⟩ := Nat.exists_eq_add_of_le hij
  rw [List.take_add, List.sum_append]
  exact Nat.le_add_right _ _

theorem rankOf_mono (hn : n ≤ n') (hlow : 1 ≤ n) (hhigh : n' ≤ buckets.length) :
    rankOf buckets n ≤ rankOf buckets n' := by
  rcases hn.eq_or_lt with rfl | hlt
  · exact le_rfl
  · refine min_le_min_right _ ?_
    have hi : (n - 1).toNat < buckets.length := by omega
    have hnext := sum_take_mono (buckets.map List.length)
      (show (n - 1).toNat + 1 ≤ (n' - 1).toNat by omega)
    have hbucket : buckets.getD (n - 1).toNat [] = buckets[(n - 1).toNat] := by
      rw [List.getD_eq_getElem?_getD, List.getElem?_eq_getElem hi, Option.getD_some]
    rw [List.take_add_one, List.getElem?_map, List.getElem?_eq_getElem hi, Option.map_some,
      Option.toList_some, List.sum_append, List.sum_singleton, ← List.map_take,
      ← List.map_take] at hnext
    rw [hbucket]
    omega

end Estimate

/-! The samples. -/

namespace CBlockAverage

/-- The samples of a bucket pass the checks that are made when a file is read. -/
structure Sane (minRelayFee : CFeeRate) (avg : CBlockAverage) : Prop where
  fees : ∀ fee ∈ avg.feeSamples, areSaneFee minRelayFee fee = true
  fits : ∀ fee ∈ avg.feeSamples, toInt64 fee = fee
  priorities : ∀ priority ∈ avg.prioritySamples, priority.nonneg = true

variable {minRelayFee fee : CFeeRate} {priority : Double} {avg : CBlockAverage}

theorem sane_new (minRelayFee : CFeeRate) : new.Sane minRelayFee := ⟨nofun, nofun, nofun⟩

theorem toInt64_toInt64 (x : ℤ) : toInt64 (toInt64 x) = toInt64 x := Int.bmod_bmod

theorem Sane.recordFee (h : avg.Sane minRelayFee) (hsane : areSaneFee minRelayFee fee = true)
    (hfits : toInt64 fee = fee) : (avg.recordFee fee).Sane minRelayFee := by
  refine ⟨fun f hf => ?_, fun f hf => ?_, h.priorities⟩
  · rcases Ring.mem_push hf with hold | rfl
    · exact h.fees f hold
    · exact hsane
  · rcases Ring.mem_push hf with hold | rfl
    · exact h.fits f hold
    · exact hfits

theorem Sane.recordPriority (h : avg.Sane minRelayFee) (hpriority : priority.nonneg = true) :
    (avg.recordPriority priority).Sane minRelayFee := by
  refine ⟨h.fees, h.fits, fun d hd => ?_⟩
  rcases Ring.mem_push hd with hold | rfl
  · exact h.priorities d hold
  · exact hpriority

theorem sane_ofSamples {vecFee : List CFeeRate} {vecPriority : List Double}
    (hfees : vecFee.all (areSaneFee minRelayFee) = true)
    (hfits : ∀ fee ∈ vecFee, toInt64 fee = fee)
    (hpriorities : vecPriority.all Double.nonneg = true) :
    (ofSamples vecFee vecPriority).Sane minRelayFee :=
  ⟨fun f hf => List.all_eq_true.1 hfees f (List.mem_of_mem_drop hf),
    fun f hf => hfits f (List.mem_of_mem_drop hf),
    fun d hd => List.all_eq_true.1 hpriorities d (List.mem_of_mem_drop hd)⟩

theorem fits_of_readFee {bs bs' : Bytes} (h : readFee bs = some (fee, bs')) :
    toInt64 fee = fee := by
  obtain ⟨r, -, heq⟩ := Option.map_eq_some_iff.1 h
  rw [← (Prod.mk.inj heq).1, toInt64_toInt64]

theorem sane_of_read {bs bs' : Bytes} (h : read minRelayFee bs = some (avg, bs')) :
    avg.Sane minRelayFee := by
  unfold read at h
  split at h
  · cases h
  · next vecFee bs₁ hfee =>
    split at h
    · next hsane =>
      split at h
      · cases h
      · next vecPriority bs₂ hpriority =>
        split at h
        · next hpositive =>
          cases h
          refine sane_ofSamples hsane (fun fee hmem => ?_) hpositive
          obtain ⟨before, after, hone⟩ := CompactSize.exists_of_mem_readVector hfee fee hmem
          exact fits_of_readFee hone
        · cases h
    · cases h

theorem nonneg_of_sane (h : areSaneFee minRelayFee fee = true) : 0 ≤ fee := by
  rw [areSaneFee, Bool.not_eq_true', Bool.or_eq_false_iff, decide_eq_false_iff_not] at h
  exact not_lt.1 h.1

/-! What is written is read back. -/

theorem readWord_encode {width n : ℕ} (hn : n < 256 ^ width) (bs : Bytes) :
    readWord width (LittleEndian.encode width n ++ bs) = some (n, bs) :=
  CompactSize.readLong_encode hn (Nat.zero_le n) bs

theorem readFee_writeFee (hfits : toInt64 fee = fee) (bs : Bytes) :
    readFee (writeFee fee ++ bs) = some (fee, bs) := by
  have hpos := Int.emod_nonneg fee (show (2 ^ 64 : ℤ) ≠ 0 by decide)
  have hlt := Int.emod_lt_of_pos fee (show (0 : ℤ) < 2 ^ 64 by decide)
  have hword : (fee % 2 ^ 64).toNat < 256 ^ 8 := by omega
  have hback : toInt64 ((fee % 2 ^ 64).toNat : ℤ) = fee := by
    rw [Int.toNat_of_nonneg hpos]
    exact (Int.emod_bmod fee (2 ^ 64)).trans hfits
  rw [readFee, writeFee, readWord_encode hword, Option.map_some, hback]

theorem readDouble_writeDouble (d : Double) (bs : Bytes) :
    readDouble (writeDouble d ++ bs) = some (d, bs) := by
  have hword : d.toNat < 256 ^ 8 := d.isLt
  rw [readDouble, writeDouble, readWord_encode hword, Option.map_some, BitVec.ofNat_toNat,
    BitVec.setWidth_eq]

theorem Sane.read_write (h : avg.Sane minRelayFee) (bs : Bytes) :
    read minRelayFee (avg.write ++ bs) = some (avg, bs) := by
  have hmax : Undo.maxSize = 0x02000000 := rfl
  have hfees := CompactSize.readVector_write (f := id)
    (show avg.feeSamples.length ≤ Undo.maxSize by have := avg.feeBound; omega)
    (by have := avg.feeBound; omega) (fun f hf bs => readFee_writeFee (h.fits f hf) bs)
    (CompactSize.writeVector writeDouble avg.prioritySamples ++ bs)
  have hpriorities := CompactSize.readVector_write (f := id)
    (show avg.prioritySamples.length ≤ Undo.maxSize by have := avg.priorityBound; omega)
    (by have := avg.priorityBound; omega) (fun d _ bs => readDouble_writeDouble d bs) bs
  rw [List.map_id] at hfees hpriorities
  have hsamples : ofSamples avg.feeSamples avg.prioritySamples = avg := by
    cases avg with
    | mk feeSamples prioritySamples feeBound priorityBound =>
      simp only [ofSamples, Ring.rtake_eq_self feeBound, Ring.rtake_eq_self priorityBound]
  rw [read, write, List.append_assoc, hfees]
  dsimp only
  rw [if_pos (List.all_eq_true.2 h.fees), hpriorities]
  dsimp only
  rw [if_pos (List.all_eq_true.2 h.priorities), hsamples]

end CBlockAverage

namespace CMinerPolicyEstimator

/-! What a call keeps. -/

section Calls

variable {minRelayFee : CFeeRate} {est : CMinerPolicyEstimator} {history : List CBlockAverage}

theorem mem_modify {α : Type*} {l : List α} {i : ℕ} {f : α → α} {a : α} (h : a ∈ l.modify i f) :
    a ∈ l ∨ ∃ b ∈ l, a = f b := by
  induction l generalizing i with
  | nil =>
    cases i with
    | zero => exact Or.inl h
    | succ i => exact Or.inl h
  | cons b l ih =>
    cases i with
    | zero =>
      rw [List.modify_zero_cons] at h
      rcases List.mem_cons.1 h with rfl | h
      · exact Or.inr ⟨b, List.mem_cons_self, rfl⟩
      · exact Or.inl (List.mem_cons_of_mem b h)
    | succ i =>
      rw [List.modify_succ_cons] at h
      rcases List.mem_cons.1 h with rfl | h
      · exact Or.inl List.mem_cons_self
      · exact (ih h).imp (List.mem_cons_of_mem b) fun ⟨c, hc, heq⟩ =>
          ⟨c, List.mem_cons_of_mem b hc, heq⟩

theorem fits_ofPaid (nFeePaid : CAmount) (nSize : ℕ) :
    toInt64 (CFeeRate.ofPaid nFeePaid nSize) = CFeeRate.ofPaid nFeePaid nSize := by
  unfold CFeeRate.ofPaid
  split
  · exact CBlockAverage.toInt64_toInt64 _
  · exact toInt64_eq_self (by decide) (by decide)

theorem sane_seenTxConfirm (h : ∀ avg ∈ history, avg.Sane minRelayFee) (i : ℕ)
    (entry : CTxMemPoolEntry) :
    ∀ avg ∈ seenTxConfirm minRelayFee i history entry, avg.Sane minRelayFee := by
  intro avg havg
  simp only [seenTxConfirm] at havg
  split_ifs at havg with hfee hpriority
  · rw [Bool.and_eq_true] at hfee
    rcases mem_modify havg with hold | ⟨b, hb, rfl⟩
    · exact h avg hold
    · exact (h b hb).recordFee hfee.2 (fits_ofPaid _ _)
  · rw [Bool.and_eq_true] at hpriority
    rcases mem_modify havg with hold | ⟨b, hb, rfl⟩
    · exact h avg hold
    · exact (h b hb).recordPriority hpriority.2
  · exact h avg havg

theorem sane_recordBlock (h : ∀ avg ∈ history, avg.Sane minRelayFee)
    (entries : List CTxMemPoolEntry) (nBlockHeight : ℤ) (shuffle : ℕ → Shuffle) :
    ∀ avg ∈ recordBlock minRelayFee entries nBlockHeight shuffle history, avg.Sane minRelayFee :=
  List.foldlRecOn (motive := fun l => ∀ avg ∈ l, CBlockAverage.Sane minRelayFee avg) _ _ h
    fun _ hl i _ =>
      List.foldlRecOn (motive := fun l => ∀ avg ∈ l, CBlockAverage.Sane minRelayFee avg) _ _ hl
        fun _ hl entry _ => sane_seenTxConfirm hl i entry

/-- The samples pass the checks, and the sorted copies are of them. -/
structure Consistent (minRelayFee : CFeeRate) (est : CMinerPolicyEstimator) : Prop where
  sane : ∀ avg ∈ est.history, avg.Sane minRelayFee
  fees : Held (· ≥ ·) (est.history.map CBlockAverage.feeSamples) est.sortedFeeSamples
  priorities : Held Double.ge (est.history.map CBlockAverage.prioritySamples)
    est.sortedPrioritySamples

theorem consistent_new (minRelayFee : CFeeRate) (nEntries : ℕ)
    (h : 1 ≤ nEntries ∧ nEntries ≤ 10000) : (new nEntries h).Consistent minRelayFee :=
  ⟨fun _ havg => List.eq_of_mem_replicate havg ▸ CBlockAverage.sane_new minRelayFee, Or.inl rfl,
    Or.inl rfl⟩

theorem Consistent.estimateFee (h : est.Consistent minRelayFee) (n : ℤ) :
    (est.estimateFee n).2.Consistent minRelayFee :=
  ⟨h.sane, h.fees.estimate 0 n, h.priorities⟩

theorem Consistent.estimatePriority (h : est.Consistent minRelayFee) (n : ℤ) :
    (est.estimatePriority n).2.Consistent minRelayFee :=
  ⟨h.sane, h.fees, h.priorities.estimate _ n⟩

theorem Consistent.logBucket (h : est.Consistent minRelayFee) (i : ℕ) :
    (est.logBucket i).Consistent minRelayFee := by
  simp only [CMinerPolicyEstimator.logBucket]
  split
  · exact (h.estimateFee _).estimatePriority _
  · exact h

/-- The copies are dropped, and made anew for the log. -/
theorem Consistent.seenBlock (h : est.Consistent minRelayFee) (entries : List CTxMemPoolEntry)
    (nBlockHeight : ℤ) (shuffle : ℕ → Shuffle) :
    (est.seenBlock minRelayFee entries nBlockHeight shuffle).Consistent minRelayFee := by
  unfold CMinerPolicyEstimator.seenBlock
  split
  · exact h
  · exact List.foldlRecOn (motive := fun est => Consistent minRelayFee est) _ _
      ⟨sane_recordBlock h.sane _ _ _, Or.inl rfl, Or.inl rfl⟩ fun _ hest i _ => hest.logBucket i

/-- The history of a file that is read goes with the sorted copies that are kept: there are none,
or they are of the same samples. -/
def CopiesMatch (minRelayFee : CFeeRate) (est : CMinerPolicyEstimator) : Event → Prop
  | .read bs => ∀ file, readFile minRelayFee bs = some file →
      Held (· ≥ ·) (file.1.2.map CBlockAverage.feeSamples) est.sortedFeeSamples ∧
        Held Double.ge (file.1.2.map CBlockAverage.prioritySamples) est.sortedPrioritySamples
  | _ => True

theorem read_of_readFile {bs bs' : Bytes} {nFileBestSeenHeight : ℤ}
    (h : readFile minRelayFee bs = some ((nFileBestSeenHeight, history), bs'))
    (est : CMinerPolicyEstimator) : est.read minRelayFee bs =
      { est with
        nBestSeenHeight := nFileBestSeenHeight
        history := history
        entries := length_readFile h } := by
  unfold read
  split
  · next hnone => cases hnone.symm.trans h
  · next hsome =>
    cases hsome.symm.trans h
    rfl

theorem read_of_none {bs : Bytes} (h : readFile minRelayFee bs = none)
    (est : CMinerPolicyEstimator) : est.read minRelayFee bs = est := by
  unfold read
  split
  · rfl
  · next hsome => cases hsome.symm.trans h

theorem sane_of_readFile {bs : Bytes} {file : (ℤ × List CBlockAverage) × Bytes}
    (h : readFile minRelayFee bs = some file) : ∀ avg ∈ file.1.2, avg.Sane minRelayFee := by
  unfold readFile at h
  split at h
  · cases h
  · split at h
    · cases h
    · split at h
      · cases h
      · obtain ⟨r, hmany, rfl⟩ := Option.map_eq_some_iff.1 h
        intro avg havg
        obtain ⟨before, after, hone⟩ := CompactSize.exists_of_mem_readMany hmany avg havg
        exact CBlockAverage.sane_of_read hone

theorem Consistent.step (h : est.Consistent minRelayFee) {event : Event}
    (hmatch : CopiesMatch minRelayFee est event) :
    (CMinerPolicyEstimator.step minRelayFee est event).Consistent minRelayFee := by
  cases event with
  | seenBlock entries nBlockHeight shuffle => exact h.seenBlock entries nBlockHeight shuffle
  | estimateFee n => exact h.estimateFee n
  | estimatePriority n => exact h.estimatePriority n
  | read bs =>
    change (est.read minRelayFee bs).Consistent minRelayFee
    cases hfile : readFile minRelayFee bs with
    | none => rwa [read_of_none hfile]
    | some file =>
      obtain ⟨hfees, hpriorities⟩ := hmatch file hfile
      rw [read_of_readFile hfile]
      exact ⟨sane_of_readFile hfile, hfees, hpriorities⟩

theorem readFile_write (h : ∀ avg ∈ est.history, avg.Sane minRelayFee) (bs : Bytes) :
    readFile minRelayFee (est.write ++ bs) =
      some ((toInt32 (est.nBestSeenHeight % 2 ^ 32).toNat, est.history), bs) := by
  have hentries := est.entries
  have hheight : (est.nBestSeenHeight % 2 ^ 32).toNat < 256 ^ 4 := by omega
  have hlength : est.history.length < 256 ^ 8 := by omega
  have hmany := CompactSize.readMany_write (f := id) (fun avg havg bs => (h avg havg).read_write bs)
    bs
  rw [List.map_id] at hmany
  rw [readFile, write, List.append_assoc, List.append_assoc,
    CBlockAverage.readWord_encode hheight]
  dsimp only
  rw [CBlockAverage.readWord_encode hlength]
  dsimp only
  rw [if_neg (by omega), hmany, Option.map_some]

end Calls

/-! The estimates. -/

section Sound

variable {minRelayFee : CFeeRate} {est : CMinerPolicyEstimator}

def feeSamples (est : CMinerPolicyEstimator) : List CFeeRate :=
  (est.history.map CBlockAverage.feeSamples).flatten

/-- Estimates follow from the samples alone: there are none from fewer than eleven, else they are
the highest but for the samples of the buckets before and of half of the bucket. -/
structure EstimatesSound (minRelayFee : CFeeRate) (est : CMinerPolicyEstimator) : Prop where
  missing : ∀ n : ℤ, n < 1 ∨ est.history.length < n ∨ est.feeSamples.length < 11 →
    (est.estimateFee n).1 = 0
  highest : ∀ n : ℤ, 1 ≤ n → n ≤ est.history.length → 11 ≤ est.feeSamples.length →
    IsKthHighest est.feeSamples (rankOf (est.history.map CBlockAverage.feeSamples) n)
      (est.estimateFee n).1
  antitone : ∀ n n' : ℤ, 1 ≤ n → n ≤ n' → (est.estimateFee n').1 ≤ (est.estimateFee n).1
  written : ∀ nEntries h bs, let est' := (new nEntries h).read minRelayFee (est.write ++ bs)
    ∀ n, (est'.estimateFee n).1 = (est.estimateFee n).1 ∧
      (est'.estimatePriority n).1 = (est.estimatePriority n).1

theorem Consistent.estimateFee_missing (h : est.Consistent minRelayFee) {n : ℤ}
    (hn : n < 1 ∨ est.history.length < n ∨ est.feeSamples.length < 11) :
    (est.estimateFee n).1 = 0 := by
  rw [← or_assoc] at hn
  rcases hn with hout | hfew
  · refine estimate_of_out ?_
    rwa [List.length_map]
  · exact h.fees.estimate_of_few hfew

theorem Consistent.estimateFee_kth (h : est.Consistent minRelayFee) {n : ℤ} (hlow : 1 ≤ n)
    (hhigh : n ≤ est.history.length) (hmany : 11 ≤ est.feeSamples.length) :
    kth (· ≥ ·) est.feeSamples (rankOf (est.history.map CBlockAverage.feeSamples) n) =
      some (est.estimateFee n).1 := by
  refine h.fees.kth_estimate hlow ?_ hmany
  rwa [List.length_map]

theorem Consistent.estimateFee_nonneg (h : est.Consistent minRelayFee) (n : ℤ) :
    0 ≤ (est.estimateFee n).1 := by
  by_cases hmissing : n < 1 ∨ est.history.length < n ∨ est.feeSamples.length < 11
  · rw [h.estimateFee_missing hmissing]
  · have hmem := OrderStatistics.mem_of_kth (h.estimateFee_kth (n := n) (by omega) (by omega)
      (by omega))
    obtain ⟨samples, hsamples, hfee⟩ := List.mem_flatten.1 hmem
    obtain ⟨avg, havg, rfl⟩ := List.mem_map.1 hsamples
    exact CBlockAverage.nonneg_of_sane ((h.sane avg havg).fees _ hfee)

theorem Consistent.antitone (h : est.Consistent minRelayFee) {n n' : ℤ} (hlow : 1 ≤ n)
    (hn : n ≤ n') : (est.estimateFee n').1 ≤ (est.estimateFee n).1 := by
  by_cases hmissing : n' < 1 ∨ est.history.length < n' ∨ est.feeSamples.length < 11
  · rw [h.estimateFee_missing hmissing]
    exact h.estimateFee_nonneg n
  · have hhigh : n' ≤ (est.history.map CBlockAverage.feeSamples).length := by
      rw [List.length_map]
      omega
    have hrank := rankOf_mono hn hlow hhigh
    exact OrderStatistics.kth_mono (r := (· ≥ ·)) hrank
      (h.estimateFee_kth hlow (by omega) (by omega))
      (h.estimateFee_kth (by omega) (by omega) (by omega))

theorem Consistent.sound (h : est.Consistent minRelayFee) : est.EstimatesSound minRelayFee where
  missing _ := h.estimateFee_missing
  highest _ hlow hhigh hmany :=
    OrderStatistics.isKthHighest_of_kth (h.estimateFee_kth hlow hhigh hmany)
  antitone _ _ := h.antitone
  written nEntries hentries bs := by
    intro est' n
    have hfile := readFile_write h.sane bs
    have hread : est' = _ := read_of_readFile hfile (new nEntries hentries)
    rw [hread]
    exact ⟨Held.estimate_eq (Or.inl rfl) h.fees 0 n,
      Held.estimate_eq (Or.inl rfl) h.priorities _ n⟩

/-- In every run in which a file is read only where the sorted copies go with it, the estimates
follow the history. -/
theorem estimates_follow_history (minRelayFee : CFeeRate) (events : List Event)
    (h : Runs.Meets (step minRelayFee) (CopiesMatch minRelayFee) (new 25 (by decide)) events) :
    (Runs.run (step minRelayFee) (new 25 (by decide)) events).EstimatesSound minRelayFee :=
  (Runs.run_invariant (fun _ _ hest hmatch => hest.step hmatch)
    (consistent_new minRelayFee 25 _) h).sound

/-- A shuffle that happens to leave the entries in their order. -/
def sampleShuffle : Shuffle := ⟨id, fun _ => List.Perm.refl _⟩

/-- Ten transactions that took one block, and one that took two. -/
def sampleEntries : List CTxMemPoolEntry :=
  List.replicate 10 ⟨100, 20, 1, 0⟩ ++ [⟨99, 20, 1, 0⟩]

/-- A file with one empty bucket. -/
def emptyFile : Bytes := LittleEndian.encode 4 50 ++ LittleEndian.encode 8 1 ++ [0, 0]

theorem estimates_follow_history_sample :
    (Runs.run (step 10000) (new 25 (by decide))
      [.read emptyFile, .seenBlock sampleEntries 101 fun _ => sampleShuffle,
        .estimateFee 1]).EstimatesSound 10000 :=
  estimates_follow_history 10000 _
    ⟨fun _ _ => ⟨Or.inl rfl, Or.inl rfl⟩, trivial, trivial, trivial⟩

set_option maxRecDepth 2000 in
/-- A file that is read after an estimate has been made. The copy of the old samples is kept, and
answers for a history without any. -/
theorem stale_copy_survives_read :
    let est := Runs.run (step 10000) (new 25 (by decide))
      [.seenBlock sampleEntries 101 fun _ => sampleShuffle, .read emptyFile]
    est.feeSamples = [] ∧ (est.estimateFee 1).1 = 20000 ∧ ¬est.EstimatesSound 10000 := by
  have hsamples : (Runs.run (step 10000) (new 25 (by decide))
      [.seenBlock sampleEntries 101 fun _ => sampleShuffle, .read emptyFile]).feeSamples = [] := by
    decide
  have hestimate : ((Runs.run (step 10000) (new 25 (by decide))
      [.seenBlock sampleEntries 101 fun _ => sampleShuffle, .read emptyFile]).estimateFee 1).1 =
      20000 := by
    decide
  refine ⟨hsamples, hestimate, fun h => ?_⟩
  have hmissing := h.missing 1 (Or.inr (Or.inr (by rw [hsamples]; decide)))
  rw [hestimate] at hmissing
  exact absurd hmissing (by decide)

end Sound

end CMinerPolicyEstimator

end Scrypta.FeeEstimates
