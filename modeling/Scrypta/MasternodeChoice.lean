import Mathlib.Data.Set.Function
import Scrypta.MasternodeOwners

/-! The choice of a masternode at random: `FindRandomNotInVec` counts the enabled entries, subtracts
the number of the excluded inputs without asking which entries they are, draws below the difference
and walks over the entries that are left. -/

namespace Scrypta.Masternodes

section Choice

variable (env : Env) (s : CMasternodeMan) (vecToExclude : List CTxIn) (protocolVersion : ℤ)

/-- The version `-1` stands for the one of the payments. -/
def minProtocol : ℤ :=
  if protocolVersion = -1 then env.minMasternodePaymentsProto else protocolVersion

/-- The test of `CountEnabled` on an entry that has been checked. -/
def counts (protocolVersion : ℤ) (mn : CMasternode) : Bool :=
  !(decide (mn.protocolVersion < protocolVersion) || !mn.isEnabled)

def countEnabled (protocolVersion : ℤ) : ℤ × CMasternodeMan :=
  let s := checkAll env s
  (toInt32 (s.vMasternodes.countP (counts (minProtocol env protocolVersion))), s)

def isExcluded (mn : CMasternode) : Bool :=
  vecToExclude.any fun usedVin => mn.vin.prevout == usedVin.prevout

/-- The walk stops at an entry that passes its tests when the number, lowered by one there, is below
one. It returns the place of the entry. -/
def walk (passes : CMasternode → Bool) : ℤ → ℕ → List CMasternode → Option ℕ
  | _, _, [] => none
  | rand, i, mn :: rest =>
    if passes mn then
      if rand - 1 < 1 then some i else walk passes (rand - 1) (i + 1) rest
    else walk passes rand (i + 1) rest

/-- How many numbers can be drawn, where one is drawn: an `int` minus a `size_t` is a `size_t`, and
`GetRandInt` takes an `int` that it hands on as an unsigned number. -/
def drawBound (nCountEnabled : ℤ) : Option ℕ :=
  let difference := (nCountEnabled - vecToExclude.length) % 2 ^ 64
  if difference < 1 then none else some (toInt32 difference % 2 ^ 64).toNat

/-- The place of the masternode that is returned when `GetRand` answers `nRand`, or `none`. -/
def findRandomNotInVec (nRand : ℕ) : Option ℕ × CMasternodeMan :=
  let protocolVersion := minProtocol env protocolVersion
  let counted := countEnabled env s protocolVersion
  ((drawBound vecToExclude counted.1).bind fun _ =>
    walk (fun mn => counts protocolVersion mn && !isExcluded vecToExclude mn) (toInt32 nRand) 0
      counted.2.vMasternodes, counted.2)

/-- The enabled masternodes of sufficient protocol. -/
def nEnabled : ℕ :=
  (checkAll env s).vMasternodes.countP (counts (minProtocol env protocolVersion))

/-- The places of those that are not excluded. -/
def eligible : Set ℕ :=
  {i | ∃ mn, (checkAll env s).vMasternodes[i]? = some mn ∧
    (counts (minProtocol env protocolVersion) mn && !isExcluded vecToExclude mn) = true}

/-- The number is drawn from as many as the count promises, if at all; there is no answer exactly
when no entry is eligible; and each eligible entry has one number that leads to it. -/
structure CoversEligible : Prop where
  range : ∀ n, drawBound vecToExclude (countEnabled env s protocolVersion).1 = some n →
    0 < n ∧ (n : ℤ) = (nEnabled env s protocolVersion : ℤ) - vecToExclude.length
  none_iff : ∀ r, (∀ n, drawBound vecToExclude (countEnabled env s protocolVersion).1 = some n →
    r < n) → ((findRandomNotInVec env s vecToExclude protocolVersion r).1 = none ↔
      eligible env s vecToExclude protocolVersion = ∅)
  bijOn : (eligible env s vecToExclude protocolVersion).Nonempty → ∃ n,
    drawBound vecToExclude (countEnabled env s protocolVersion).1 = some n ∧
    Set.BijOn (fun r => (findRandomNotInVec env s vecToExclude protocolVersion r).1)
      {r | r < n} (some '' eligible env s vecToExclude protocolVersion)

end Choice

section Walk

variable {passes : CMasternode → Bool} {rand : ℤ} {l : List CMasternode}

theorem passes_of_walk {i j : ℕ} (h : walk passes rand i l = some j) :
    ∃ mn, i ≤ j ∧ l[j - i]? = some mn ∧ passes mn = true := by
  induction l generalizing rand i with
  | nil => cases h
  | cons mn rest ih =>
    have hrest : ∀ {rand'}, walk passes rand' (i + 1) rest = some j →
        ∃ mn', i ≤ j ∧ (mn :: rest)[j - i]? = some mn' ∧ passes mn' = true := by
      intro rand' h
      obtain ⟨mn', hle, hget, hpasses⟩ := ih h
      obtain ⟨d, rfl⟩ := Nat.exists_eq_add_of_le hle
      have hplace : i + 1 + d - i = d + 1 := by omega
      rw [Nat.add_sub_cancel_left] at hget
      exact ⟨mn', by omega, by rw [hplace, List.getElem?_cons_succ, hget], hpasses⟩
    rw [walk] at h
    split at h
    · next hpasses =>
      split at h
      · obtain rfl := Option.some.inj h
        exact ⟨mn, le_refl _, by rw [Nat.sub_self, List.getElem?_cons_zero], hpasses⟩
      · exact hrest h
    · exact hrest h

/-- The numbers 0 and 1 lead to the first entry that passes. -/
theorem walk_low (hrand : rand ≤ 1) (i : ℕ) (l : List CMasternode) :
    walk passes rand i l = walk passes 0 i l := by
  induction l generalizing i with
  | nil => rfl
  | cons mn rest ih =>
    rw [walk, walk, if_pos (show rand - 1 < 1 by omega), if_pos (show (0 : ℤ) - 1 < 1 by omega),
      ih]

theorem walk_zero_ne_none {mn : CMasternode} (hmn : mn ∈ l) (hpasses : passes mn = true) (i : ℕ) :
    walk passes 0 i l ≠ none := by
  induction l generalizing i with
  | nil => cases hmn
  | cons mn' rest ih =>
    rw [walk]
    split
    · rw [if_pos (by decide)]
      exact Option.some_ne_none i
    · next hfails =>
      rcases List.mem_cons.mp hmn with rfl | hmn
      · exact absurd hpasses hfails
      · exact ih hmn (i + 1)

end Walk

section Covers

variable {env : Env} {s : CMasternodeMan} {vecToExclude : List CTxIn} {protocolVersion : ℤ}

theorem minProtocol_minProtocol :
    minProtocol env (minProtocol env protocolVersion) = minProtocol env protocolVersion := by
  unfold minProtocol
  split <;> simp

theorem nEnabled_le : nEnabled env s protocolVersion ≤ s.vMasternodes.length :=
  List.countP_le_length.trans_eq (List.length_map _)

theorem countEnabled_fst :
    (countEnabled env s protocolVersion).1 = toInt32 (nEnabled env s protocolVersion) := by
  unfold countEnabled nEnabled
  dsimp only

theorem countEnabled_snd : (countEnabled env s protocolVersion).2 = checkAll env s := by
  unfold countEnabled
  dsimp only

theorem countEnabled_eq (hsize : s.vMasternodes.length < 2 ^ 31) :
    (countEnabled env s protocolVersion).1 = nEnabled env s protocolVersion := by
  have hle : nEnabled env s protocolVersion ≤ s.vMasternodes.length := nEnabled_le
  rw [countEnabled_fst]
  exact toInt32_eq_self (by omega) (by omega)

/-- Below the range of an `int` a number is drawn whenever the two counts differ. -/
theorem drawBound_eq {nCountEnabled : ℕ} (hcount : nCountEnabled < 2 ^ 31)
    (hexclude : vecToExclude.length < 2 ^ 31) :
    drawBound vecToExclude nCountEnabled =
      if nCountEnabled = vecToExclude.length then none
      else some (((nCountEnabled : ℤ) - vecToExclude.length) % 2 ^ 64).toNat := by
  unfold drawBound
  dsimp only
  generalize vecToExclude.length = size at *
  have hint : toInt32 (((nCountEnabled : ℤ) - size) % 2 ^ 64) = nCountEnabled - size := by
    have hmod : toInt32 (((nCountEnabled : ℤ) - size) % 2 ^ 64) =
        toInt32 ((nCountEnabled : ℤ) - size) := by
      unfold toInt32 Int.bmod
      rw [Int.emod_emod_of_dvd _ (by decide)]
    rw [hmod, toInt32_eq_self (by omega) (by omega)]
  rw [hint]
  by_cases heq : nCountEnabled = size
  · rw [if_pos heq, heq, sub_self, if_pos (by decide)]
  · rw [if_neg heq, if_neg (by omega)]

/-- With fewer excluded than counted the difference is drawn from. -/
theorem drawBound_of_lt {nCountEnabled : ℕ} (hcount : nCountEnabled < 2 ^ 31)
    (hlt : vecToExclude.length < nCountEnabled) :
    drawBound vecToExclude nCountEnabled = some (nCountEnabled - vecToExclude.length) := by
  rw [drawBound_eq hcount (by omega), if_neg (by omega)]
  congr 1
  omega

theorem findRandomNotInVec_fst (r : ℕ) :
    (findRandomNotInVec env s vecToExclude protocolVersion r).1 =
      (drawBound vecToExclude (countEnabled env s protocolVersion).1).bind fun _ =>
        walk (fun mn => counts (minProtocol env protocolVersion) mn && !isExcluded vecToExclude mn)
          (toInt32 r) 0 (checkAll env s).vMasternodes := by
  unfold findRandomNotInVec
  dsimp only
  rw [countEnabled_snd, countEnabled_fst, countEnabled_fst]
  unfold nEnabled
  rw [minProtocol_minProtocol]

theorem mem_eligible_of_find {r j : ℕ}
    (h : (findRandomNotInVec env s vecToExclude protocolVersion r).1 = some j) :
    j ∈ eligible env s vecToExclude protocolVersion := by
  rw [findRandomNotInVec_fst] at h
  obtain ⟨n, -, hwalk⟩ := Option.bind_eq_some_iff.1 h
  obtain ⟨mn, -, hget, hpasses⟩ := passes_of_walk hwalk
  rw [Nat.sub_zero] at hget
  exact ⟨mn, hget, hpasses⟩

theorem find_of_drawn {n : ℕ}
    (hbound : drawBound vecToExclude (countEnabled env s protocolVersion).1 = some n) (r : ℕ) :
    (findRandomNotInVec env s vecToExclude protocolVersion r).1 =
      walk (fun mn => counts (minProtocol env protocolVersion) mn && !isExcluded vecToExclude mn)
        (toInt32 r) 0 (checkAll env s).vMasternodes := by
  rw [findRandomNotInVec_fst, hbound, Option.bind_some]

theorem find_zero_eq_one {n : ℕ}
    (hbound : drawBound vecToExclude (countEnabled env s protocolVersion).1 = some n) :
    (findRandomNotInVec env s vecToExclude protocolVersion 1).1 =
      (findRandomNotInVec env s vecToExclude protocolVersion 0).1 := by
  rw [find_of_drawn hbound, find_of_drawn hbound]
  exact walk_low (by decide) 0 _

theorem find_zero_ne_none {n : ℕ}
    (hbound : drawBound vecToExclude (countEnabled env s protocolVersion).1 = some n)
    (h : (eligible env s vecToExclude protocolVersion).Nonempty) :
    (findRandomNotInVec env s vecToExclude protocolVersion 0).1 ≠ none := by
  obtain ⟨i, mn, hget, hpasses⟩ := h
  rw [find_of_drawn hbound]
  exact walk_zero_ne_none (List.mem_of_getElem? hget) hpasses 0

/-- Where a number is drawn below `n` and leads to one eligible entry each, there is one number. -/
theorem one_of_bijOn {n : ℕ}
    (hbound : drawBound vecToExclude (countEnabled env s protocolVersion).1 = some n)
    (hbij : Set.BijOn (fun r => (findRandomNotInVec env s vecToExclude protocolVersion r).1)
      {r | r < n} (some '' eligible env s vecToExclude protocolVersion)) : n ≤ 1 := by
  by_contra hmore
  have hsame : (1 : ℕ) = 0 := hbij.injOn (show 1 < n by omega) (show 0 < n by omega)
    (find_zero_eq_one hbound)
  exact absurd hsame (by decide)

/-- All eligible masternodes are covered exactly when none is eligible and no more are excluded
than are enabled, or when one is eligible and one less is excluded than are enabled. -/
theorem coversEligible_iff (env : Env) (s : CMasternodeMan) (vecToExclude : List CTxIn)
    (protocolVersion : ℤ) (hsize : s.vMasternodes.length < 2 ^ 31)
    (hexclude : vecToExclude.length < 2 ^ 31) :
    CoversEligible env s vecToExclude protocolVersion ↔
      (eligible env s vecToExclude protocolVersion = ∅ ∧
        vecToExclude.length ≤ nEnabled env s protocolVersion) ∨
      ((∃ i, eligible env s vecToExclude protocolVersion = {i}) ∧
        nEnabled env s protocolVersion = vecToExclude.length + 1) := by
  have hle : nEnabled env s protocolVersion ≤ s.vMasternodes.length := nEnabled_le
  have hcounted : (countEnabled env s protocolVersion).1 = nEnabled env s protocolVersion :=
    countEnabled_eq hsize
  have hbound : drawBound vecToExclude (nEnabled env s protocolVersion) = _ :=
    drawBound_eq (by omega) hexclude
  rw [← hcounted] at hbound
  constructor
  · intro h
    have hfit : vecToExclude.length ≤ nEnabled env s protocolVersion := by
      by_contra hmore
      rw [if_neg (by omega)] at hbound
      have hrange := h.range _ hbound
      omega
    rcases Set.eq_empty_or_nonempty (eligible env s vecToExclude protocolVersion) with hnone | hsome
    · exact Or.inl ⟨hnone, hfit⟩
    · obtain ⟨n, hdrawn, hbij⟩ := h.bijOn hsome
      have hone := one_of_bijOn hdrawn hbij
      have hrange := h.range n hdrawn
      obtain rfl : n = 1 := by omega
      refine Or.inr ⟨?_, by omega⟩
      obtain ⟨i, hi⟩ := hsome
      refine ⟨i, Set.eq_singleton_iff_unique_mem.2 ⟨hi, fun j hj => ?_⟩⟩
      -- both entries are what the one number leads to
      obtain ⟨r, hr, hri⟩ := hbij.surjOn (Set.mem_image_of_mem some hi)
      obtain ⟨r', hr', hrj⟩ := hbij.surjOn (Set.mem_image_of_mem some hj)
      obtain rfl : r = 0 := Nat.lt_one_iff.1 hr
      obtain rfl : r' = 0 := Nat.lt_one_iff.1 hr'
      exact Option.some.inj (hrj.symm.trans hri)
  · rintro (⟨hnone, hfit⟩ | ⟨⟨i, hone⟩, hcount⟩)
    · refine ⟨fun n hn => ?_, fun r _ => iff_of_true ?_ hnone, fun hsome => ?_⟩
      · rw [hbound] at hn
        split at hn
        · cases hn
        · obtain rfl := Option.some.inj hn
          omega
      · by_contra hfound
        obtain ⟨j, hj⟩ := Option.ne_none_iff_exists'.1 hfound
        have hmem := mem_eligible_of_find hj
        rw [hnone] at hmem
        exact hmem
      · rw [hnone] at hsome
        exact absurd hsome Set.not_nonempty_empty
    · have hdrawn : drawBound vecToExclude (countEnabled env s protocolVersion).1 = some 1 := by
        have hdifference : nEnabled env s protocolVersion - vecToExclude.length = 1 := by omega
        rw [hcounted, drawBound_of_lt (by omega) (by omega), hdifference]
      have hsome : (eligible env s vecToExclude protocolVersion).Nonempty := by
        rw [hone]
        exact Set.singleton_nonempty i
      have hfirst : (findRandomNotInVec env s vecToExclude protocolVersion 0).1 = some i := by
        obtain ⟨j, hj⟩ := Option.ne_none_iff_exists'.1 (find_zero_ne_none hdrawn hsome)
        have hmem := mem_eligible_of_find hj
        rw [hone] at hmem
        rw [hj, Set.mem_singleton_iff.1 hmem]
      refine ⟨fun n hn => ?_, fun r hr => ?_, fun _ => ⟨1, hdrawn, ?_⟩⟩
      · obtain rfl := Option.some.inj (hdrawn.symm.trans hn)
        omega
      · obtain rfl : r = 0 := Nat.lt_one_iff.1 (hr 1 hdrawn)
        exact iff_of_false (by rw [hfirst]; exact Option.some_ne_none i) hsome.ne_empty
      · rw [hone, Set.image_singleton]
        refine ⟨fun r hr => ?_, fun r hr r' hr' _ => ?_, fun x hx => ?_⟩
        · obtain rfl : r = 0 := Nat.lt_one_iff.1 hr
          exact hfirst
        · exact (Nat.lt_one_iff.1 hr).trans (Nat.lt_one_iff.1 hr').symm
        · rw [Set.mem_singleton_iff.1 hx]
          exact ⟨0, show 0 < 1 by decide, hfirst⟩

/-- Enabled masternodes at these outpoints. -/
def enabledAt (hashes : List Uint256) : CMasternodeMan where
  vMasternodes := hashes.map fun hash => { CMasternode.ofBroadcast sampleBroadcast with
    vin := sampleVin hash, lastPing := ⟨sampleVin hash, 9, 1600000000, [1]⟩ }
  mapSeenMasternodeBroadcast := .empty
  mapSeenMasternodePing := .empty
  activeVin := sampleVin 0

/-- Of two masternodes both numbers lead to the first. -/
theorem last_never_chosen :
    drawBound [] (countEnabled (sampleEnv 1600000000) (enabledAt [50, 51]) (-1)).1 = some 2 ∧
      (∀ r < 2, (findRandomNotInVec (sampleEnv 1600000000) (enabledAt [50, 51]) [] (-1) r).1 =
        some 0) ∧
      ¬CoversEligible (sampleEnv 1600000000) (enabledAt [50, 51]) [] (-1) := by
  have hdrawn :
      drawBound [] (countEnabled (sampleEnv 1600000000) (enabledAt [50, 51]) (-1)).1 = some 2 := by
    decide
  refine ⟨hdrawn, by decide, fun h => ?_⟩
  obtain ⟨n, hn, hbij⟩ := h.bijOn ⟨0, _, rfl, by decide⟩
  have hone := one_of_bijOn hn hbij
  obtain rfl := Option.some.inj (hdrawn.symm.trans hn)
  exact absurd hone (by decide)

theorem coversEligible_sample : CoversEligible (sampleEnv 1600000000) (enabledAt [50]) [] (-1) := by
  refine (coversEligible_iff _ _ _ _ (by decide) (by decide)).2
    (Or.inr ⟨⟨0, Set.ext fun i => ?_⟩, by decide⟩)
  match i with
  | 0 => exact iff_of_true ⟨_, rfl, by decide⟩ rfl
  | i + 1 => exact iff_of_false (fun ⟨mn, hget, _⟩ => nomatch hget) (Nat.succ_ne_zero i)

end Covers

end Scrypta.Masternodes
