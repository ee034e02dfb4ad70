import Scrypta.Minting

/-! The subsidies over the heights: no block after the proof-of-work blocks gets more than one
before it, but for the last block of that reward and for a gap of a thousand blocks without any. -/

namespace Scrypta.Validation

/-- A block at this height has a subsidy, after the blocks that mint none. -/
def Subsidised (nHeight : ℤ) : Prop :=
  500 < nHeight ∧ ¬(5364307 < nHeight ∧ nHeight ≤ 5365307)

instance (nHeight : ℤ) : Decidable (Subsidised nHeight) := inferInstanceAs (Decidable (_ ∧ _))

theorem ite_between {P : CAmount → Prop} {n lo hi : ℤ} {a b : CAmount} (hlo : lo < n)
    (hit : n ≤ hi → P a) (hmiss : hi < n → P b) : P (if lo < n ∧ n ≤ hi then a else b) := by
  split
  · rename_i hin
    exact hit hin.2
  · rename_i hout
    exact hmiss (not_le.1 fun hle => hout ⟨hlo, hle⟩)

/-- A case for each row of the schedule after the premine. -/
theorem nSubsidy_elim {P : CAmount → Prop} {n : ℤ} (h : 30 < n)
    (h499 : n ≤ 499 → P (0 * coin))
    (h750 : 499 < n → n ≤ 750 → P (2 * coin))
    (h180301 : 750 < n → n ≤ 180301 → P (10 * coin))
    (h698702 : 180301 < n → n ≤ 698702 → P (9 * coin))
    (h1217103 : 698702 < n → n ≤ 1217103 → P 810000000)
    (h2253904 : 1217103 < n → n ≤ 2253904 → P 650000000)
    (h3290705 : 2253904 < n → n ≤ 3290705 → P 520000000)
    (h5364306 : 3290705 < n → n ≤ 5364306 → P 310000000)
    (hgap : 5364306 < n → n ≤ 5365306 → P 0)
    (h7437907 : 5365306 < n → n ≤ 7437907 → P 190000000)
    (hlast : 7437907 < n → P 110000000) : P (nSubsidy n) := by
  unfold nSubsidy
  rw [if_neg (by omega), if_neg (by omega)]
  refine ite_between h h499 fun hlo => ?_
  refine ite_between hlo (h750 hlo) fun hlo => ?_
  refine ite_between hlo (h180301 hlo) fun hlo => ?_
  refine ite_between hlo (h698702 hlo) fun hlo => ?_
  refine ite_between hlo (h1217103 hlo) fun hlo => ?_
  refine ite_between hlo (h2253904 hlo) fun hlo => ?_
  refine ite_between hlo (h3290705 hlo) fun hlo => ?_
  refine ite_between hlo (h5364306 hlo) fun hlo => ?_
  by_cases hin : n ≤ 5365306
  · rw [if_neg (by omega), if_neg (by omega)]
    exact hgap hlo hin
  · refine ite_between (not_le.1 hin) (h7437907 (not_le.1 hin)) fun hlo => ?_
    rw [if_pos hlo]
    exact hlast hlo

theorem nSubsidy_pos_iff {nHeight : ℤ} (h : 100 < nHeight) :
    0 < nSubsidy (nHeight - 1) ↔ Subsidised nHeight := by
  unfold Subsidised
  apply nSubsidy_elim (P := fun m => 0 < m ↔ 500 < nHeight ∧ _) (by omega : 30 < nHeight - 1)
  case h499 => exact fun _ => iff_of_false (by decide) (by omega)
  case hgap => exact fun _ _ => iff_of_false (by decide) (by omega)
  case hlast => exact fun _ => iff_of_true (by decide) (by omega)
  all_goals exact fun _ _ => iff_of_true (by decide) (by omega)

/-- The last proof-of-work block mints two coins. -/
theorem nSubsidy_early {n : ℤ} (hlo : 499 < n) (hhi : n ≤ 750) : nSubsidy n = 2 * coin := by
  apply nSubsidy_elim (P := fun m => m = 2 * coin) (by omega : 30 < n)
  case h750 => exact fun _ _ => rfl
  all_goals omega

/-- All later rows down to the gap have more than that. -/
theorem lt_nSubsidy {n : ℤ} (hlo : 750 < n) (hhi : n ≤ 5364306) : 2 * coin < nSubsidy n := by
  apply nSubsidy_elim (P := fun m => 2 * coin < m) (by omega : 30 < n)
  case h180301 | h698702 | h1217103 | h2253904 | h3290705 | h5364306 => exact fun _ _ => by decide
  all_goals omega

/-- Those after the gap have less. -/
theorem nSubsidy_late {n : ℤ} (hlo : 5364306 < n) : nSubsidy n ≤ 2 * coin := by
  apply nSubsidy_elim (P := fun m => m ≤ 2 * coin) (by omega : 30 < n)
  case hgap | h7437907 => exact fun _ _ => by decide
  case hlast => exact fun _ => by decide
  all_goals omega

/-- A row bounds the rows after it. -/
theorem nSubsidy_antitone {n m : ℤ} (hn : 750 < n) (h : n ≤ m)
    (hgap : ¬(5364306 < n ∧ n ≤ 5365306)) : nSubsidy m ≤ nSubsidy n := by
  -- a row for each of the two heights; the rows that do not fit the order of the heights close
  apply nSubsidy_elim (P := fun a => nSubsidy m ≤ a) (by omega : 30 < n) <;> intros <;>
    apply nSubsidy_elim (P := fun b => b ≤ _) (by omega : 30 < m) <;> intros <;>
    first
    | omega
    | decide

variable {par : Params} {nMoneySupply : CAmount}

theorem getBlockValue_eq_min (hroom : nMoneySupply < par.nMaxMoneyOut) (nHeight : ℤ) :
    getBlockValue par nMoneySupply nHeight =
      min (nSubsidy (nHeight - 1)) (par.nMaxMoneyOut - nMoneySupply) := by
  unfold getBlockValue
  dsimp only
  rw [if_neg (not_le.2 hroom)]
  split
  · rename_i hmax
    exact (min_eq_right (sub_le_iff_le_add'.2 hmax)).symm
  · rename_i hless
    exact (min_eq_left (le_sub_iff_add_le'.2 (not_le.1 hless).le)).symm

/-- No supply passes the limit. -/
theorem getBlockValue_le_room (hroom : nMoneySupply ≤ par.nMaxMoneyOut) (nHeight : ℤ) :
    nMoneySupply + getBlockValue par nMoneySupply nHeight ≤ par.nMaxMoneyOut := by
  rcases hroom.lt_or_eq with hlt | heq
  · rw [getBlockValue_eq_min hlt]
    exact (add_le_add_right (min_le_right _ _) _).trans_eq (add_sub_cancel _ _)
  · unfold getBlockValue
    dsimp only
    rw [if_pos heq.ge, add_zero]
    exact hroom

/-- The reward of the later block is not larger, and both have one. -/
def Descends (par : Params) (nMoneySupply : CAmount) (h₁ h₂ : ℤ) : Prop :=
  getBlockValue par nMoneySupply h₂ ≤ getBlockValue par nMoneySupply h₁ ∧
    0 < getBlockValue par nMoneySupply h₁ ∧ 0 < getBlockValue par nMoneySupply h₂

theorem getBlockValue_pos_iff (hroom : nMoneySupply < par.nMaxMoneyOut) {nHeight : ℤ}
    (h : 100 < nHeight) : 0 < getBlockValue par nMoneySupply nHeight ↔ Subsidised nHeight := by
  rw [getBlockValue_eq_min hroom, lt_min_iff, nSubsidy_pos_iff h]
  exact and_iff_left (sub_pos.2 hroom)

/-- The order of two rewards, away from the gap. -/
theorem getBlockValue_le_iff (hroom : nMoneySupply < par.nMaxMoneyOut) {h₁ h₂ : ℤ} (hlt : h₁ < h₂)
    (hs₁ : Subsidised h₁) (hs₂ : Subsidised h₂) :
    getBlockValue par nMoneySupply h₂ ≤ getBlockValue par nMoneySupply h₁ ↔
      (h₁ ≤ 751 → h₂ ≤ 751 ∨ 5365307 < h₂ ∨ par.nMaxMoneyOut ≤ nMoneySupply + 2 * coin) := by
  unfold Subsidised at hs₁ hs₂
  rw [getBlockValue_eq_min hroom, getBlockValue_eq_min hroom]
  by_cases hearly : h₁ ≤ 751
  · have h₁_eq := nSubsidy_early (n := h₁ - 1) (by omega) (by omega)
    rw [h₁_eq]
    by_cases hboth : h₂ ≤ 751
    · have h₂_eq := nSubsidy_early (n := h₂ - 1) (by omega) (by omega)
      rw [h₂_eq]
      exact iff_of_true (le_refl _) fun _ => Or.inl hboth
    · by_cases hlate : 5365307 < h₂
      · have h₂_le := nSubsidy_late (n := h₂ - 1) (by omega)
        exact iff_of_true (min_le_min_right _ h₂_le) fun _ => Or.inr (Or.inl hlate)
      · have h₂_lt := lt_nSubsidy (n := h₂ - 1) (by omega) (by omega)
        constructor
        · intro hle _
          refine Or.inr (Or.inr ?_)
          by_contra hmore
          have hroom₂ : 2 * coin < par.nMaxMoneyOut - nMoneySupply :=
            lt_sub_iff_add_lt'.2 (not_le.1 hmore)
          exact absurd (hle.trans (min_le_left _ _)) (not_le.2 (lt_min h₂_lt hroom₂))
        · intro h
          rcases h hearly with hle | hle | hle
          · exact absurd hle hboth
          · exact absurd hle hlate
          · have hroom₂ : par.nMaxMoneyOut - nMoneySupply ≤ 2 * coin := sub_le_iff_le_add'.2 hle
            rw [min_eq_right hroom₂]
            exact min_le_right _ _
  · have hle := nSubsidy_antitone (n := h₁ - 1) (m := h₂ - 1) (by omega) (by omega) (by omega)
    exact iff_of_true (min_le_min_right _ hle) fun h => absurd h hearly

/-- The rewards after the proof-of-work blocks, of the main network up to height 750 and of the
test networks up to height 100. -/
theorem descends_iff_subsidised (hlast : 100 ≤ par.nLastPOWBlock) :
    (∀ (nMoneySupply : CAmount) (h₁ h₂ : ℤ), nMoneySupply < par.nMaxMoneyOut →
      par.nLastPOWBlock < h₁ → h₁ < h₂ →
      (Descends par nMoneySupply h₁ h₂ ↔ Subsidised h₁ ∧ Subsidised h₂ ∧
        (h₁ ≤ 751 → h₂ ≤ 751 ∨ 5365307 < h₂ ∨ par.nMaxMoneyOut ≤ nMoneySupply + 2 * coin))) ∧
    ∀ (nMoneySupply : CAmount) (nHeight : ℤ), 0 ≤ nMoneySupply →
      nMoneySupply ≤ par.nMaxMoneyOut → 0 ≤ getBlockValue par nMoneySupply nHeight ∧
        nMoneySupply + getBlockValue par nMoneySupply nHeight ≤ par.nMaxMoneyOut := by
  constructor
  · intro nMoneySupply h₁ h₂ hroom hpow hlt
    have hpos₁ := getBlockValue_pos_iff hroom (show 100 < h₁ by omega)
    have hpos₂ := getBlockValue_pos_iff hroom (show 100 < h₂ by omega)
    unfold Descends
    constructor
    · rintro ⟨hle, h₁_pos, h₂_pos⟩
      have hs₁ := hpos₁.1 h₁_pos
      have hs₂ := hpos₂.1 h₂_pos
      exact ⟨hs₁, hs₂, (getBlockValue_le_iff hroom hlt hs₁ hs₂).1 hle⟩
    · rintro ⟨hs₁, hs₂, hcond⟩
      exact ⟨(getBlockValue_le_iff hroom hlt hs₁ hs₂).2 hcond, hpos₁.2 hs₁, hpos₂.2 hs₂⟩
  · intro nMoneySupply nHeight _ hmax
    exact ⟨getBlockValue_nonneg, getBlockValue_le_room hmax nHeight⟩

theorem descends_iff_subsidised_main : Descends mainParams 0 180302 180303 :=
  ((descends_iff_subsidised (show 100 ≤ mainParams.nLastPOWBlock by decide)).1 0 180302 180303
    (by decide) (by decide) (by decide)).2 ⟨by decide, by decide, by decide⟩

/-- The first block of the gap mints nothing, the first after it 1.9 coins. -/
theorem gap_mints_nothing :
    mainParams.nLastPOWBlock < 5364308 ∧ getBlockValue mainParams 0 5364308 = 0 ∧
      getBlockValue mainParams 0 5365308 = 190000000 ∧
      ¬Descends mainParams 0 5364308 5365308 := by
  refine ⟨by decide, by decide, by decide, ?_⟩
  unfold Descends
  decide

end Scrypta.Validation
