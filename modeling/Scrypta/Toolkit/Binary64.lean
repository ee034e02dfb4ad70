import Mathlib.Algebra.Order.Field.Power
import Mathlib.Algebra.Order.Floor.Ring
import Mathlib.Data.Int.Log
import Mathlib.Data.Rat.Floor
import Mathlib.Tactic.Linarith

/-! Arithmetic in double precision on numbers far from the ends of its range: each result is the
nearest number with a significand of 53 bits, and the even one of two. -/

namespace Binary64

def roundEven (x : ℚ) : ℤ :=
  if x - ⌊x⌋ < 1 / 2 ∨ x - ⌊x⌋ = 1 / 2 ∧ ⌊x⌋ % 2 = 0 then ⌊x⌋ else ⌊x⌋ + 1

/-- The exponent of the last of 53 bits. -/
def lastBit (x : ℚ) : ℤ := Int.log 2 |x| - 52

/-- The double nearest to `x`. -/
def round (x : ℚ) : ℚ :=
  if x = 0 then 0 else roundEven (x / 2 ^ lastBit x) * 2 ^ lastBit x

/-- The decimal literal `n / d`. -/
def literal (n d : ℕ) : ℚ := round (n / d)

def ofInt (n : ℤ) : ℚ := round n

def add (x y : ℚ) : ℚ := round (x + y)

def mul (x y : ℚ) : ℚ := round (x * y)

/-- The conversion to an integer type. -/
def truncate (x : ℚ) : ℤ := if 0 ≤ x then ⌊x⌋ else ⌈x⌉

theorem floor_le_roundEven (x : ℚ) : ⌊x⌋ ≤ roundEven x := by
  unfold roundEven
  split <;> omega

theorem roundEven_le_floor (x : ℚ) : roundEven x ≤ ⌊x⌋ + 1 := by
  unfold roundEven
  split <;> omega

theorem roundEven_mono {x y : ℚ} (h : x ≤ y) : roundEven x ≤ roundEven y := by
  rcases (Int.floor_mono h).lt_or_eq with hlt | heq
  · calc roundEven x ≤ ⌊x⌋ + 1 := roundEven_le_floor x
      _ ≤ ⌊y⌋ := hlt
      _ ≤ roundEven y := floor_le_roundEven y
  · unfold roundEven
    rw [← heq]
    by_cases hy : y - ⌊x⌋ < 1 / 2 ∨ y - ⌊x⌋ = 1 / 2 ∧ ⌊x⌋ % 2 = 0
    · have hx : x - ⌊x⌋ < 1 / 2 ∨ x - ⌊x⌋ = 1 / 2 ∧ ⌊x⌋ % 2 = 0 := by
        rcases hy with hy | ⟨hy, heven⟩
        · exact Or.inl (by linarith)
        · have hle : x - ⌊x⌋ ≤ 1 / 2 := by linarith
          exact hle.lt_or_eq.imp id fun hx => ⟨hx, heven⟩
      rw [if_pos hx, if_pos hy]
    · rw [if_neg hy]
      split <;> omega

theorem roundEven_natCast (n : ℕ) : roundEven n = n := by
  simp [roundEven]

section Positive

variable {x y : ℚ}

theorem zpow_le_round (hx : 0 < x) : (2 : ℚ) ^ Int.log 2 x ≤ round x := by
  have hlow : (2 : ℚ) ^ Int.log 2 x ≤ x := Int.zpow_log_le_self (by norm_num) hx
  have hpos : (0 : ℚ) < 2 ^ lastBit x := zpow_pos (by norm_num) _
  have hsplit : (2 : ℚ) ^ Int.log 2 x = (2 ^ 52 : ℕ) * 2 ^ lastBit x := by
    have hexp : Int.log 2 x = 52 + lastBit x := by
      rw [lastBit, abs_of_pos hx]
      omega
    rw [hexp, zpow_add₀ (by norm_num)]
    norm_num
  have hbits : ((2 ^ 52 : ℕ) : ℚ) ≤ x / 2 ^ lastBit x := by
    rw [le_div_iff₀ hpos, ← hsplit]
    exact hlow
  have hround := roundEven_mono hbits
  rw [roundEven_natCast] at hround
  rw [round, if_neg hx.ne', hsplit]
  exact mul_le_mul_of_nonneg_right (by exact_mod_cast hround) hpos.le

theorem round_le_zpow (hx : 0 < x) : round x ≤ 2 ^ (Int.log 2 x + 1) := by
  have hhigh : x < (2 : ℚ) ^ (Int.log 2 x + 1) := Int.lt_zpow_succ_log_self (by norm_num) x
  have hpos : (0 : ℚ) < 2 ^ lastBit x := zpow_pos (by norm_num) _
  have hsplit : (2 : ℚ) ^ (Int.log 2 x + 1) = (2 ^ 53 : ℕ) * 2 ^ lastBit x := by
    have hexp : Int.log 2 x + 1 = 53 + lastBit x := by
      rw [lastBit, abs_of_pos hx]
      omega
    rw [hexp, zpow_add₀ (by norm_num)]
    norm_num
  have hbits : x / 2 ^ lastBit x ≤ ((2 ^ 53 : ℕ) : ℚ) := by
    rw [div_le_iff₀ hpos, ← hsplit]
    exact hhigh.le
  have hround := roundEven_mono hbits
  rw [roundEven_natCast] at hround
  rw [round, if_neg hx.ne', hsplit]
  exact mul_le_mul_of_nonneg_right (by exact_mod_cast hround) hpos.le

theorem round_pos (hx : 0 < x) : 0 < round x :=
  lt_of_lt_of_le (zpow_pos (by norm_num) _) (zpow_le_round hx)

theorem round_nonneg (hx : 0 ≤ x) : 0 ≤ round x := by
  rcases hx.lt_or_eq with hx | rfl
  · exact (round_pos hx).le
  · simp [round]

/-- Numbers with one exponent are rounded to one grid, and a power of two is between the others. -/
theorem round_mono (hx : 0 ≤ x) (h : x ≤ y) : round x ≤ round y := by
  rcases hx.lt_or_eq with hx | rfl
  · have hy : 0 < y := lt_of_lt_of_le hx h
    rcases (Int.log_mono_right (b := 2) hx h).lt_or_eq with hlt | heq
    · calc round x ≤ 2 ^ (Int.log 2 x + 1) := round_le_zpow hx
        _ ≤ 2 ^ Int.log 2 y := zpow_le_zpow_right₀ (by norm_num) hlt
        _ ≤ round y := zpow_le_round hy
    · have hbit : lastBit x = lastBit y := by
        rw [lastBit, lastBit, abs_of_pos hx, abs_of_pos hy, heq]
      have hpos : (0 : ℚ) < 2 ^ lastBit y := zpow_pos (by norm_num) _
      have hround : roundEven (x / 2 ^ lastBit y) ≤ roundEven (y / 2 ^ lastBit y) :=
        roundEven_mono (div_le_div_of_nonneg_right h hpos.le)
      rw [round, round, if_neg hx.ne', if_neg hy.ne', hbit]
      exact mul_le_mul_of_nonneg_right (by exact_mod_cast hround) hpos.le
  · rw [round, if_pos rfl]
    exact round_nonneg h

end Positive

theorem ofInt_pos {n : ℤ} (h : 0 < n) : 0 < ofInt n := round_pos (by exact_mod_cast h)

theorem ofInt_nonneg {n : ℤ} (h : 0 ≤ n) : 0 ≤ ofInt n := round_nonneg (by exact_mod_cast h)

theorem ofInt_mono {n m : ℤ} (hn : 0 ≤ n) (h : n ≤ m) : ofInt n ≤ ofInt m :=
  round_mono (by exact_mod_cast hn) (by exact_mod_cast h)

theorem literal_mono {n m d : ℕ} (h : n ≤ m) : literal n d ≤ literal m d :=
  round_mono (by positivity) (div_le_div_of_nonneg_right (by exact_mod_cast h) (by positivity))

theorem literal_nonneg (n d : ℕ) : 0 ≤ literal n d := round_nonneg (by positivity)

theorem zero_le_mul {x y : ℚ} (hx : 0 ≤ x) (hy : 0 ≤ y) : 0 ≤ mul x y :=
  round_nonneg (Rat.mul_nonneg hx hy)

theorem mul_mono_right {x y z : ℚ} (hx : 0 ≤ x) (hy : 0 ≤ y) (h : y ≤ z) : mul x y ≤ mul x z :=
  round_mono (Rat.mul_nonneg hx hy) (mul_le_mul_of_nonneg_left h hx)

theorem truncate_mono {x y : ℚ} (hx : 0 ≤ x) (h : x ≤ y) : truncate x ≤ truncate y := by
  rw [truncate, truncate, if_pos hx, if_pos (hx.trans h)]
  exact Int.floor_mono h

example : mul (ofInt 1000000000) (literal 85 100) = 850000000 := by with_unfolding_all decide

example : truncate (mul (ofInt 1) (literal 85 100)) = 0 := by with_unfolding_all decide

end Binary64
