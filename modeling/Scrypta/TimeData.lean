import Mathlib.Algebra.Order.Group.Unbundled.Int
import Scrypta.Primitives
import Scrypta.Toolkit.OrderStatistics
import Scrypta.Toolkit.Ring
import Scrypta.Toolkit.Runs

/-! The clock as the peers see it: the median of the offsets that the first peers report. -/

namespace Scrypta.TimeData

open OrderStatistics (IsMedian kth)

/-- The last values, and the same values sorted. There always is one. -/
structure CMedianFilter (T : Type*) [LinearOrder T] where
  vValues : List T
  vSorted : List T
  nSize : ℕ
  nonempty : vValues ≠ []
  pos : 0 < nSize
  bounded : vValues.length ≤ nSize
  sorted : vSorted = vValues.insertionSort (· ≤ ·)

namespace CMedianFilter

variable {T : Type*} [LinearOrder T]

def new (size : ℕ) (h : 0 < size) (initialValue : T) : CMedianFilter T where
  vValues := [initialValue]
  vSorted := [initialValue]
  nSize := size
  nonempty := List.cons_ne_nil _ _
  pos := h
  bounded := h
  sorted := rfl

def input (f : CMedianFilter T) (value : T) : CMedianFilter T where
  vValues := Ring.push f.nSize f.vValues value
  vSorted := (Ring.push f.nSize f.vValues value).insertionSort (· ≤ ·)
  nSize := f.nSize
  nonempty := Ring.push_ne_nil _ _ _
  pos := f.pos
  bounded := Ring.length_push_le f.pos f.bounded value
  sorted := rfl

def size (f : CMedianFilter T) : ℕ := f.vValues.length

theorem length_vSorted (f : CMedianFilter T) : f.vSorted.length = f.size := by
  rw [f.sorted, List.length_insertionSort, size]

theorem size_pos (f : CMedianFilter T) : 0 < f.size := List.length_pos_iff.2 f.nonempty

theorem size_div_lt (f : CMedianFilter T) : f.size / 2 < f.vSorted.length := by
  have hpos := f.size_pos
  rw [length_vSorted]
  omega

/-- With an even number of values, `mean` is what `T` makes of the sum of the two in the middle,
divided by 2. -/
def median (mean : T → T → T) (f : CMedianFilter T) : T :=
  have hhalf := f.size_div_lt
  if f.size % 2 = 1 then f.vSorted[f.size / 2]
  else mean f.vSorted[f.size / 2 - 1] f.vSorted[f.size / 2]

theorem isMedian_median (mean : T → T → T) {f : CMedianFilter T} (hodd : f.size % 2 = 1) :
    IsMedian f.vValues (f.median mean) := by
  rw [OrderStatistics.isMedian_iff_kth hodd, kth, median, if_pos hodd]
  simp only [f.sorted]
  exact List.getElem?_eq_getElem _

end CMedianFilter

def int64Mean (a b : ℤ) : ℤ := (toInt64 (a + b)).tdiv 2

def abs64 (n : ℤ) : ℤ := if 0 ≤ n then n else toInt64 (-n)

def clockWarning : String :=
  "Warning: Please check that your computer's date and time are correct! " ++
    "If your clock is wrong Scrypta Core will not work properly."

/-- What `AddTimeData` keeps between its calls. Every offset is a 64-bit number. -/
structure PeerTime (CNetAddr : Type*) where
  setKnown : List CNetAddr
  vTimeOffsets : CMedianFilter ℤ
  fits : ∀ n ∈ vTimeOffsets.vValues, -2 ^ 63 ≤ n
  nTimeOffset : ℤ
  fDone : Bool
  strMiscWarning : String

variable {CNetAddr : Type*}

def PeerTime.start : PeerTime CNetAddr where
  setKnown := []
  vTimeOffsets := CMedianFilter.new 200 (by decide) 0
  fits := by decide
  nTimeOffset := 0
  fDone := false
  strMiscWarning := ""

def PeerTime.getTimeOffset (s : PeerTime CNetAddr) : ℤ := s.nTimeOffset

theorem neg_le_toInt64 (n : ℤ) : -2 ^ 63 ≤ toInt64 n := by
  have h := Int.le_bmod (x := n) (m := 2 ^ 64) (by decide)
  exact h

/-- The set and the filter with one more sample. -/
def PeerTime.record (s : PeerTime CNetAddr) (ip : CNetAddr) (nOffsetSample : ℤ)
    (h : -2 ^ 63 ≤ nOffsetSample) : PeerTime CNetAddr :=
  { s with
    setKnown := ip :: s.setKnown
    vTimeOffsets := s.vTimeOffsets.input nOffsetSample
    fits := fun n hn => (Ring.mem_push hn).elim (s.fits n) fun heq => heq ▸ h }

/-- The clock is set to the median of the samples, where it is not too far away. -/
def PeerTime.adjust (s : PeerTime CNetAddr) : PeerTime CNetAddr :=
  if 5 ≤ s.vTimeOffsets.size ∧ s.vTimeOffsets.size % 2 = 1 then
    let nMedian := s.vTimeOffsets.median int64Mean
    let vSorted := s.vTimeOffsets.vSorted
    if abs64 nMedian < 70 * 60 then { s with nTimeOffset := nMedian }
    else if s.fDone || vSorted.any fun nOffset => nOffset != 0 && decide (abs64 nOffset < 5 * 60)
    then { s with nTimeOffset := 0 }
    else { s with nTimeOffset := 0, fDone := true, strMiscWarning := clockWarning }
  else s

/-- A call, with the time of the clock when it is made. -/
structure Call (CNetAddr : Type*) where
  getTime : ℤ
  ip : CNetAddr
  nTime : ℤ

def Call.nOffsetSample (c : Call CNetAddr) : ℤ := toInt64 (c.nTime - c.getTime)

theorem Call.fits (c : Call CNetAddr) : -2 ^ 63 ≤ c.nOffsetSample := neg_le_toInt64 _

section Adjust

variable {s : PeerTime CNetAddr} {n m : ℤ}

/-- What the bound makes of a median. -/
def within (m : ℤ) : ℤ := if |m| < 70 * 60 then m else 0

theorem abs_within_lt (m : ℤ) : |within m| < 70 * 60 := by
  unfold within
  split
  · assumption
  · decide

@[simp] theorem setKnown_adjust (s : PeerTime CNetAddr) : s.adjust.setKnown = s.setKnown := by
  simp only [PeerTime.adjust]
  split_ifs <;> rfl

@[simp] theorem vTimeOffsets_adjust (s : PeerTime CNetAddr) :
    s.adjust.vTimeOffsets = s.vTimeOffsets := by
  simp only [PeerTime.adjust]
  split_ifs <;> rfl

theorem abs64_lt_iff (hn : -2 ^ 63 ≤ n) :
    abs64 n < 70 * 60 ↔ |n| < 70 * 60 ∨ n = -2 ^ 63 := by
  unfold abs64
  split
  · rename_i hpos
    rw [abs_of_nonneg hpos]
    omega
  · rename_i hneg
    rcases hn.eq_or_lt with rfl | hlt
    · decide
    · rw [toInt64_eq_self (by omega) (by omega), abs_of_neg (by omega)]
      omega

theorem nTimeOffset_adjust (h5 : 5 ≤ s.vTimeOffsets.size) (hodd : s.vTimeOffsets.size % 2 = 1) :
    s.adjust.nTimeOffset = if abs64 (s.vTimeOffsets.median int64Mean) < 70 * 60 then
      s.vTimeOffsets.median int64Mean else 0 := by
  simp only [PeerTime.adjust]
  rw [if_pos ⟨h5, hodd⟩]
  split_ifs <;> rfl

theorem nTimeOffset_adjust_of_not (h : ¬(5 ≤ s.vTimeOffsets.size ∧ s.vTimeOffsets.size % 2 = 1)) :
    s.adjust.nTimeOffset = s.nTimeOffset := by
  simp only [PeerTime.adjust]
  rw [if_neg h]

/-- The offset is small, and where the number of samples is odd it follows from their median. -/
structure PeerTime.Sound (s : PeerTime CNetAddr) : Prop where
  near : |s.nTimeOffset| < 70 * 60
  median : 5 ≤ s.vTimeOffsets.size → s.vTimeOffsets.size % 2 = 1 →
    ∀ m, IsMedian s.vTimeOffsets.vValues m → s.nTimeOffset = within m

theorem fits_median (s : PeerTime CNetAddr) (hodd : s.vTimeOffsets.size % 2 = 1) :
    -2 ^ 63 ≤ s.vTimeOffsets.median int64Mean :=
  s.fits _ (CMedianFilter.isMedian_median int64Mean hodd).mem

/-- The least 64-bit number is its own absolute value, and passes for a small one. -/
theorem sound_adjust_iff (hnear : |s.nTimeOffset| < 70 * 60) :
    s.adjust.Sound ↔ (5 ≤ s.vTimeOffsets.size → s.vTimeOffsets.size % 2 = 1 →
      2 * s.vTimeOffsets.vValues.count (-2 ^ 63) < s.vTimeOffsets.size) := by
  by_cases hset : 5 ≤ s.vTimeOffsets.size ∧ s.vTimeOffsets.size % 2 = 1
  · obtain ⟨h5, hodd⟩ := hset
    have hmedian := CMedianFilter.isMedian_median int64Mean hodd
    have hfits := fits_median s hodd
    have hoffset := nTimeOffset_adjust h5 hodd
    have hleast := OrderStatistics.isMedian_least_iff hodd s.fits
    have hcount : 2 * s.vTimeOffsets.vValues.count (-2 ^ 63) < s.vTimeOffsets.size ↔
        s.vTimeOffsets.median int64Mean ≠ -2 ^ 63 := by
      have hparity : s.vTimeOffsets.size < 2 * s.vTimeOffsets.vValues.count (-2 ^ 63) ↔
          s.vTimeOffsets.median int64Mean = -2 ^ 63 :=
        hleast.symm.trans ⟨fun h => hmedian.unique hodd h, fun h => h ▸ hmedian⟩
      rw [ne_eq, ← hparity]
      omega
    rw [imp_iff_right h5, imp_iff_right hodd, hcount]
    constructor
    · intro h heq
      have habs := h.near
      rw [hoffset, heq] at habs
      exact absurd habs (by decide)
    · intro hne
      have hwithin : s.adjust.nTimeOffset = within (s.vTimeOffsets.median int64Mean) := by
        rw [hoffset, within]
        refine if_congr ?_ rfl rfl
        rw [abs64_lt_iff hfits]
        exact or_iff_left hne
      refine ⟨hwithin ▸ abs_within_lt _, fun _ _ m hm => ?_⟩
      rw [vTimeOffsets_adjust] at hm
      rw [hwithin, hmedian.unique hodd hm]
  · refine iff_of_true ⟨?_, fun h5 hodd => ?_⟩ fun h5 hodd => absurd ⟨h5, hodd⟩ hset
    · rwa [nTimeOffset_adjust_of_not hset]
    · rw [vTimeOffsets_adjust] at h5 hodd
      exact absurd ⟨h5, hodd⟩ hset

theorem sound_start : (.start : PeerTime CNetAddr).Sound :=
  ⟨show |(0 : ℤ)| < 70 * 60 by decide, fun h5 => absurd h5 (show ¬5 ≤ 1 by decide)⟩

end Adjust

section Runs

variable [DecidableEq CNetAddr] {s : PeerTime CNetAddr} {c : Call CNetAddr}

def addTimeData (s : PeerTime CNetAddr) (c : Call CNetAddr) : PeerTime CNetAddr :=
  if c.ip ∈ s.setKnown then s else (s.record c.ip c.nOffsetSample c.fits).adjust

/-- The offsets that are recorded, given the addresses that are known. -/
def recorded : List CNetAddr → List (Call CNetAddr) → List ℤ
  | _, [] => []
  | known, c :: calls =>
    if c.ip ∈ known then recorded known calls
    else c.nOffsetSample :: recorded (c.ip :: known) calls

theorem addTimeData_known (h : c.ip ∈ s.setKnown) : addTimeData s c = s := if_pos h

theorem addTimeData_new (h : c.ip ∉ s.setKnown) :
    addTimeData s c = (s.record c.ip c.nOffsetSample c.fits).adjust := if_neg h

theorem setKnown_addTimeData (h : c.ip ∉ s.setKnown) :
    (addTimeData s c).setKnown = c.ip :: s.setKnown := by
  rw [addTimeData_new h, setKnown_adjust]
  rfl

theorem mem_setKnown_run (s : PeerTime CNetAddr) (calls : List (Call CNetAddr)) (ip : CNetAddr) :
    ip ∈ (Runs.run addTimeData s calls).setKnown ↔ ip ∈ s.setKnown ∨ ip ∈ calls.map Call.ip := by
  induction calls generalizing s with
  | nil => simp
  | cons c calls ih =>
    rw [Runs.run_cons, ih, List.map_cons, List.mem_cons]
    by_cases h : c.ip ∈ s.setKnown
    · rw [addTimeData_known h]
      constructor
      · exact Or.imp_right Or.inr
      · rintro (hs | rfl | hcalls)
        · exact Or.inl hs
        · exact Or.inl h
        · exact Or.inr hcalls
    · rw [setKnown_addTimeData h, List.mem_cons, or_assoc, or_left_comm]

theorem nSize_addTimeData (s : PeerTime CNetAddr) (c : Call CNetAddr) :
    (addTimeData s c).vTimeOffsets.nSize = s.vTimeOffsets.nSize := by
  by_cases h : c.ip ∈ s.setKnown
  · rw [addTimeData_known h]
  · rw [addTimeData_new h, vTimeOffsets_adjust]
    rfl

/-- The filter holds the last of the offsets that were recorded. -/
theorem vValues_run (s : PeerTime CNetAddr) (calls : List (Call CNetAddr)) :
    (Runs.run addTimeData s calls).vTimeOffsets.vValues =
      (s.vTimeOffsets.vValues ++ recorded s.setKnown calls).rtake s.vTimeOffsets.nSize := by
  induction calls generalizing s with
  | nil => rw [Runs.run_nil, recorded, List.append_nil, Ring.rtake_eq_self s.vTimeOffsets.bounded]
  | cons c calls ih =>
    rw [Runs.run_cons, ih, nSize_addTimeData, recorded]
    by_cases h : c.ip ∈ s.setKnown
    · rw [addTimeData_known h, if_pos h]
    · have hvalues : (addTimeData s c).vTimeOffsets.vValues =
          (s.vTimeOffsets.vValues ++ [c.nOffsetSample]).rtake s.vTimeOffsets.nSize := by
        rw [addTimeData_new h, vTimeOffsets_adjust]
        exact Ring.push_eq_rtake s.vTimeOffsets.pos s.vTimeOffsets.bounded _
      rw [hvalues, setKnown_addTimeData h, if_neg h, Ring.rtake_append_rtake, List.append_assoc,
        List.singleton_append]

/-- Unless the call only repeats an address, it does not leave an odd number of samples, five or
more, of which more than half are the least 64-bit number. -/
def Balanced (s : PeerTime CNetAddr) (c : Call CNetAddr) : Prop :=
  c.ip ∉ s.setKnown →
    let vValues := Ring.push s.vTimeOffsets.nSize s.vTimeOffsets.vValues c.nOffsetSample
    5 ≤ vValues.length → vValues.length % 2 = 1 → 2 * vValues.count (-2 ^ 63) < vValues.length

theorem sound_addTimeData_iff (hs : s.Sound) : (addTimeData s c).Sound ↔ Balanced s c := by
  by_cases h : c.ip ∈ s.setKnown
  · rw [addTimeData_known h]
    exact iff_of_true hs fun hnew => absurd h hnew
  · have hnear : |(s.record c.ip c.nOffsetSample c.fits).nTimeOffset| < 70 * 60 := hs.near
    rw [addTimeData_new h, sound_adjust_iff hnear, Balanced, imp_iff_right h]
    rfl

/-- What the peers make of the clock in a sequence of calls. -/
structure ClockSound (calls : List (Call CNetAddr)) : Prop where
  near : |(Runs.run addTimeData .start calls).getTimeOffset| < 70 * 60
  median : let offsets := 0 :: recorded [] calls
    5 ≤ offsets.length → offsets.length % 2 = 1 → offsets.length < 200 → ∀ m, IsMedian offsets m →
      (Runs.run addTimeData .start calls).getTimeOffset = if |m| < 70 * 60 then m else 0
  duplicates : ∀ c : Call CNetAddr, c.ip ∈ calls.map Call.ip →
    addTimeData (Runs.run addTimeData .start calls) c = Runs.run addTimeData .start calls

theorem clockSound_iff (calls : List (Call CNetAddr)) :
    ClockSound calls ↔ (Runs.run addTimeData .start calls).Sound := by
  have hvalues : (Runs.run addTimeData (.start : PeerTime CNetAddr) calls).vTimeOffsets.vValues =
      (0 :: recorded [] calls).rtake 200 := vValues_run _ _
  have hbelow : (0 :: recorded [] calls).length < 200 →
      (Runs.run addTimeData (.start : PeerTime CNetAddr) calls).vTimeOffsets.vValues =
        0 :: recorded [] calls := fun hlt => hvalues.trans (Ring.rtake_eq_self hlt.le)
  constructor
  · refine fun h => ⟨h.near, fun h5 hodd => ?_⟩
    have hlt : (0 :: recorded [] calls).length < 200 := by
      rw [CMedianFilter.size, hvalues, List.rtake, List.length_drop] at hodd
      omega
    rw [CMedianFilter.size, hbelow hlt] at h5 hodd
    rw [hbelow hlt]
    exact h.median h5 hodd hlt
  · refine fun h => ⟨h.near, fun h5 hodd hlt m hm => ?_, fun c hc => ?_⟩
    · rw [← hbelow hlt] at h5 hodd hm
      exact h.median h5 hodd m hm
    · exact addTimeData_known ((mem_setKnown_run _ _ _).2 (Or.inr hc))

/-- The clock stays near the own one, and follows the median, in just the runs in which no call
gives the least number the majority. -/
theorem clock_sound_iff_balanced (calls : List (Call CNetAddr)) :
    (∀ past, past <+: calls → ClockSound past) ↔ Runs.Meets addTimeData Balanced .start calls := by
  rw [← Runs.forall_prefix_iff_meets (fun s c => sound_addTimeData_iff) calls sound_start]
  exact forall₂_congr fun past _ => clockSound_iff past

/-- Three of the first four peers report the least time that differs from the own one by a 64-bit
number, and move the clock by 292 billion years. -/
theorem extreme_times_move_clock :
    let calls : List (Call ℕ) :=
      [⟨1700000000, 1, 1700000000 - 2 ^ 63⟩, ⟨1700000000, 2, 1700000000 - 2 ^ 63⟩,
        ⟨1700000000, 3, 1700000000⟩, ⟨1700000000, 4, 1700000000 - 2 ^ 63⟩]
    (Runs.run addTimeData .start calls).getTimeOffset = -2 ^ 63 ∧ ¬ClockSound calls := by
  have hoffset : (Runs.run addTimeData (.start : PeerTime ℕ)
      [⟨1700000000, 1, 1700000000 - 2 ^ 63⟩, ⟨1700000000, 2, 1700000000 - 2 ^ 63⟩,
        ⟨1700000000, 3, 1700000000⟩, ⟨1700000000, 4, 1700000000 - 2 ^ 63⟩]).getTimeOffset =
      -2 ^ 63 := by decide
  refine ⟨hoffset, fun h => ?_⟩
  have hnear := h.near
  rw [hoffset] at hnear
  exact absurd hnear (by decide)

end Runs

end Scrypta.TimeData
