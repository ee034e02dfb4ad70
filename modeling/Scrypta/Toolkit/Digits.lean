import Mathlib.Algebra.Order.Ring.Nat
import Mathlib.Data.List.Basic
import Scrypta.Toolkit.Decimal

/-! Numbers written with a fixed number of digits, and texts that are cut at a separator. -/

namespace Digits

/-- The `len` digits of `x` in base `b`, the highest first. -/
def fixed (digit : ℕ → Char) (b len x : ℕ) : List Char :=
  (List.range len).map fun i => digit (x / b ^ (len - 1 - i) % b)

@[simp] theorem length_fixed (digit : ℕ → Char) (b len x : ℕ) :
    (fixed digit b len x).length = len := by
  simp [fixed]

theorem mem_fixed {digit : ℕ → Char} {b len x : ℕ} (hb : 0 < b) {c : Char}
    (hc : c ∈ fixed digit b len x) : ∃ d < b, c = digit d := by
  obtain ⟨i, _, rfl⟩ := List.mem_map.mp hc
  exact ⟨_, Nat.mod_lt _ hb, rfl⟩

theorem eq_of_digits {b len x y : ℕ} (h : ∀ j < len, x / b ^ j % b = y / b ^ j % b)
    (hx : x < b ^ len) (hy : y < b ^ len) : x = y := by
  induction len generalizing x y with
  | zero => rw [Nat.pow_zero, Nat.lt_one_iff] at hx hy; rw [hx, hy]
  | succ len ih =>
    have hlow := h 0 (Nat.succ_pos len)
    rw [Nat.pow_zero, Nat.div_one, Nat.div_one] at hlow
    have hhigh : x / b = y / b := by
      apply ih
      · intro j hj
        have hdigit := h (j + 1) (Nat.succ_lt_succ hj)
        rwa [Nat.pow_succ', ← Nat.div_div_eq_div_mul, ← Nat.div_div_eq_div_mul] at hdigit
      · exact Nat.div_lt_of_lt_mul (by rwa [Nat.pow_succ'] at hx)
      · exact Nat.div_lt_of_lt_mul (by rwa [Nat.pow_succ'] at hy)
    rw [← Nat.div_add_mod x b, hlow, hhigh, Nat.div_add_mod]

theorem fixed_inj {digit : ℕ → Char} {b len x y : ℕ}
    (hdigit : ∀ c < b, ∀ d < b, digit c = digit d → c = d) (hx : x < b ^ len)
    (hy : y < b ^ len) (h : fixed digit b len x = fixed digit b len y) : x = y := by
  refine eq_of_digits (fun j hj => ?_) hx hy
  have hb : 0 < b := by
    by_contra hzero
    rw [Nat.eq_zero_of_not_pos hzero, Nat.zero_pow (Nat.zero_lt_of_lt hj)] at hx
    exact Nat.not_lt_zero _ hx
  have hi : len - 1 - j < len := by omega
  have hat := congrArg (fun l => l[len - 1 - j]?) h
  have hback : len - 1 - (len - 1 - j) = j := by omega
  simp only [fixed, List.getElem?_map, List.getElem?_range hi, Option.map_some,
    Option.some.injEq, hback] at hat
  exact hdigit _ (Nat.mod_lt _ hb) _ (Nat.mod_lt _ hb) hat

/-- A text up to the first separator, and the rest. -/
theorem append_sep_inj {α : Type*} {a : α} {xs ys xs' ys' : List α} (hxs : a ∉ xs)
    (hxs' : a ∉ xs') (h : xs ++ a :: ys = xs' ++ a :: ys') : xs = xs' ∧ ys = ys' := by
  induction xs generalizing xs' with
  | nil =>
    cases xs' with
    | nil => exact ⟨rfl, (List.cons.inj h).2⟩
    | cons x xs' =>
      obtain ⟨rfl, _⟩ := List.cons.inj h
      exact absurd List.mem_cons_self hxs'
  | cons x xs ih =>
    cases xs' with
    | nil =>
      obtain ⟨rfl, _⟩ := List.cons.inj h
      exact absurd List.mem_cons_self hxs
    | cons x' xs' =>
      obtain ⟨rfl, htail⟩ := List.cons.inj h
      have hrest := ih (fun hmem => hxs (List.mem_cons_of_mem _ hmem))
        (fun hmem => hxs' (List.mem_cons_of_mem _ hmem)) htail
      exact ⟨by rw [hrest.1], hrest.2⟩

theorem toList_toString_nat (n : ℕ) : (toString n).toList = Nat.toDigits 10 n := by
  rw [Nat.toString_eq_repr, Nat.repr, String.toList_ofList]

theorem isDigit_of_mem_nat {n : ℕ} {c : Char} (hc : c ∈ (toString n).toList) :
    c.isDigit = true := by
  rw [toList_toString_nat] at hc
  exact Nat.isDigit_of_mem_toDigits (by decide) (by decide) hc

theorem toString_nat_inj {m n : ℕ} (h : (toString m).toList = (toString n).toList) : m = n :=
  Nat.repr_inj.mp (String.toList_inj.mp h)

/-- A decimal number consists of digits and perhaps a sign. -/
theorem mem_toString_int {z : ℤ} {c : Char} (hc : c ∈ (toString z).toList) :
    c = '-' ∨ c.isDigit = true := by
  cases z with
  | ofNat n => exact Or.inr (isDigit_of_mem_nat (n := n) hc)
  | negSucc n =>
    have htext : (toString (Int.negSucc n)).toList = '-' :: (toString (n + 1)).toList := by
      change ("-" ++ (n + 1).repr).toList = _
      rw [String.toList_append]
      rfl
    rw [htext] at hc
    rcases List.mem_cons.mp hc with rfl | hdigit
    · exact Or.inl rfl
    · exact Or.inr (isDigit_of_mem_nat hdigit)

theorem toString_int_inj {y z : ℤ} (h : (toString y).toList = (toString z).toList) : y = z :=
  Int.repr_injective (String.toList_inj.mp h)

end Digits
