import Mathlib.Data.Nat.Digits.Lemmas
import Mathlib.Tactic.Ring

/-! Change of base in a buffer of fixed size: the buffer is multiplied by the base of the source and
a digit is added, with the carry handed from place to place. The lowest digit of a buffer stands
first, the highest digit of a number that is read stands first. -/

namespace Positional

variable {b m : ℕ}

/-- The buffer times `m` plus a carry, and the carry out of its last place. -/
def mulAdd (b m : ℕ) : ℕ → List ℕ → List ℕ × ℕ
  | carry, [] => ([], carry)
  | carry, d :: ds =>
    let high := mulAdd b m ((carry + m * d) / b) ds
    ((carry + m * d) % b :: high.1, high.2)

@[simp] theorem length_mulAdd (carry : ℕ) (ds : List ℕ) :
    (mulAdd b m carry ds).1.length = ds.length := by
  induction ds generalizing carry with
  | nil => rfl
  | cons d ds ih => simp [mulAdd, ih]

theorem mulAdd_lt (hb : 0 < b) (carry : ℕ) (ds : List ℕ) :
    ∀ d ∈ (mulAdd b m carry ds).1, d < b := by
  induction ds generalizing carry with
  | nil => exact fun d hd => absurd hd List.not_mem_nil
  | cons d ds ih => exact List.forall_mem_cons.mpr ⟨Nat.mod_lt _ hb, ih _⟩

theorem ofDigits_mulAdd (carry : ℕ) (ds : List ℕ) :
    Nat.ofDigits b (mulAdd b m carry ds).1 + b ^ ds.length * (mulAdd b m carry ds).2 =
      carry + m * Nat.ofDigits b ds := by
  induction ds generalizing carry with
  | nil => simp [mulAdd]
  | cons d ds ih =>
    have hplace := Nat.mod_add_div (carry + m * d) b
    calc Nat.ofDigits b (mulAdd b m carry (d :: ds)).1 +
            b ^ (d :: ds).length * (mulAdd b m carry (d :: ds)).2
        = (carry + m * d) % b + b * (Nat.ofDigits b (mulAdd b m ((carry + m * d) / b) ds).1 +
            b ^ ds.length * (mulAdd b m ((carry + m * d) / b) ds).2) := by
          rw [mulAdd, Nat.ofDigits_cons, List.length_cons, pow_succ']
          ring
      _ = (carry + m * d) % b + b * ((carry + m * d) / b) + m * (b * Nat.ofDigits b ds) := by
          rw [ih]
          ring
      _ = carry + m * Nat.ofDigits b (d :: ds) := by
          rw [hplace, Nat.ofDigits_cons]
          ring

theorem mulAdd_fits {carry : ℕ} {ds : List ℕ}
    (h : carry + m * Nat.ofDigits b ds < b ^ ds.length) :
    (mulAdd b m carry ds).2 = 0 ∧
      Nat.ofDigits b (mulAdd b m carry ds).1 = carry + m * Nat.ofDigits b ds := by
  have hvalue := ofDigits_mulAdd (b := b) (m := m) carry ds
  have hcarry : (mulAdd b m carry ds).2 = 0 := by
    by_contra hne
    have hle := Nat.le_mul_of_pos_right (b ^ ds.length) (Nat.pos_of_ne_zero hne)
    omega
  rw [hcarry, Nat.mul_zero, Nat.add_zero] at hvalue
  exact ⟨hcarry, hvalue⟩

/-- The digits of a number in base `m` are read into the buffer, `none` where a carry is left. -/
def feed (b m : ℕ) : List ℕ → List ℕ → Option (List ℕ)
  | ds, [] => some ds
  | ds, x :: xs =>
    let next := mulAdd b m x ds
    if next.2 = 0 then feed b m next.1 xs else none

/-- The number with these digits, the highest first. -/
def read (m : ℕ) (xs : List ℕ) : ℕ := Nat.ofDigits m xs.reverse

theorem read_cons (x : ℕ) (xs : List ℕ) : read m (x :: xs) = m ^ xs.length * x + read m xs := by
  rw [read, List.reverse_cons, Nat.ofDigits_append, Nat.ofDigits_singleton, List.length_reverse,
    Nat.add_comm]
  rfl

/-- A number that fits goes into the buffer without a carry. -/
theorem feed_fits {ds xs : List ℕ} (hb : 0 < b) (hm : 0 < m) (hds : ∀ d ∈ ds, d < b)
    (hxs : ∀ x ∈ xs, x < m) (hfit : m ^ xs.length * (Nat.ofDigits b ds + 1) ≤ b ^ ds.length) :
    ∃ ds', feed b m ds xs = some ds' ∧ (∀ d ∈ ds', d < b) ∧
      Nat.ofDigits b ds' = m ^ xs.length * Nat.ofDigits b ds + read m xs := by
  induction xs generalizing ds with
  | nil => exact ⟨ds, rfl, hds, by simp [read]⟩
  | cons x xs ih =>
    have hx := hxs x List.mem_cons_self
    have hstep : m ^ xs.length * (x + m * Nat.ofDigits b ds + 1) ≤ b ^ ds.length := by
      refine le_trans ?_ hfit
      rw [List.length_cons, pow_succ, Nat.mul_assoc]
      refine Nat.mul_le_mul_left _ ?_
      rw [Nat.mul_add]
      omega
    have hone : 1 ≤ m ^ xs.length := Nat.pow_pos hm
    have hlt : x + m * Nat.ofDigits b ds < b ^ ds.length :=
      lt_of_lt_of_le (Nat.lt_succ_self _) ((Nat.le_mul_of_pos_left _ hone).trans hstep)
    obtain ⟨hcarry, hvalue⟩ := mulAdd_fits hlt
    obtain ⟨ds', hfeed, hdigits, hnumber⟩ := ih (mulAdd_lt hb x ds)
      (fun y hy => hxs y (List.mem_cons_of_mem _ hy)) (by rw [hvalue, length_mulAdd]; exact hstep)
    refine ⟨ds', ?_, hdigits, ?_⟩
    · rw [feed, if_pos hcarry, hfeed]
    · rw [hnumber, hvalue, read_cons, List.length_cons, pow_succ]
      ring

/-- A ratio between the bases bounds the places that are needed. -/
theorem pow_le_pow_of_ratio {p q n s : ℕ} (hp : 0 < p) (hb : 0 < b) (h : m ^ p ≤ b ^ q)
    (hs : q * n ≤ p * s) : m ^ n ≤ b ^ s := by
  refine le_of_pow_le_pow_left₀ hp.ne' (Nat.zero_le _) ?_
  calc (m ^ n) ^ p = (m ^ p) ^ n := by rw [← pow_mul, ← pow_mul, Nat.mul_comm]
    _ ≤ (b ^ q) ^ n := Nat.pow_le_pow_left h n
    _ = b ^ (q * n) := by rw [← pow_mul]
    _ ≤ b ^ (p * s) := Nat.pow_le_pow_right hb hs
    _ = (b ^ s) ^ p := by rw [← pow_mul, Nat.mul_comm]

/-- The digits of a number, the highest first. -/
def digits (b n : ℕ) : List ℕ := (Nat.digits b n).reverse

theorem read_digits (b n : ℕ) : read b (digits b n) = n := by
  rw [read, digits, List.reverse_reverse, Nat.ofDigits_digits]

theorem digits_lt (hb : 1 < b) {n d : ℕ} (hd : d ∈ digits b n) : d < b :=
  Nat.digits_lt_base hb (List.mem_reverse.mp hd)

theorem head_digits {n d : ℕ} (hd : d ∈ (digits b n).head?) : d ≠ 0 := by
  rw [digits, List.head?_reverse] at hd
  have hne : n ≠ 0 := by
    rintro rfl
    rw [Nat.digits_zero] at hd
    exact absurd hd (by simp)
  rw [List.getLast?_eq_some_getLast (Nat.digits_ne_nil_iff_ne_zero.mpr hne), Option.mem_some] at hd
  exact hd ▸ Nat.getLast_digit_ne_zero b hne

/-- Digits without a leading zero are those of their number. -/
theorem digits_read (hb : 1 < b) {xs : List ℕ} (hxs : ∀ x ∈ xs, x < b)
    (hhead : ∀ x ∈ xs.head?, x ≠ 0) : digits b (read b xs) = xs := by
  rw [digits, read, Nat.digits_ofDigits b hb, List.reverse_reverse]
  · exact fun x hx => hxs x (List.mem_reverse.mp hx)
  · intro hne
    rw [List.getLast_reverse]
    exact hhead _ (List.head?_eq_some_head _)

/-- What is left of a buffer when its leading zeros are skipped. -/
theorem dropWhile_reverse (hb : 1 < b) {ds : List ℕ} (hds : ∀ d ∈ ds, d < b) :
    ds.reverse.dropWhile (· = 0) = digits b (Nat.ofDigits b ds) := by
  induction ds using List.reverseRecOn with
  | nil => simp [digits]
  | append_singleton ds d ih =>
    rw [List.reverse_append, List.reverse_singleton, List.singleton_append]
    by_cases hd : d = 0
    · subst hd
      rw [List.dropWhile_cons_of_pos (by simp), Nat.ofDigits_append_zero,
        ih fun x hx => hds x (List.mem_append_left _ hx)]
    · have hread : Nat.ofDigits b (ds ++ [d]) = read b (d :: ds.reverse) := by
        rw [read, List.reverse_cons, List.reverse_reverse]
      rw [List.dropWhile_cons_of_neg (by simpa using hd), hread, digits_read hb]
      · intro x hx
        refine hds x ?_
        simpa [or_comm] using hx
      · intro x hx
        exact Option.some.inj hx ▸ hd

/-- A change of base in an empty buffer that is large enough. -/
theorem feed_zeros (hb : 1 < b) (hm : 1 < m) {xs : List ℕ} {s : ℕ} (hxs : ∀ x ∈ xs, x < m)
    (hsize : m ^ xs.length ≤ b ^ s) :
    ∃ ds, feed b m (List.replicate s 0) xs = some ds ∧
      ds.reverse.dropWhile (· = 0) = digits b (read m xs) := by
  have hzero : Nat.ofDigits b (List.replicate s 0) = 0 := by
    rw [← List.nil_append (List.replicate s 0), Nat.ofDigits_append_replicate_zero,
      Nat.ofDigits_nil]
  have hempty : ∀ d ∈ List.replicate s 0, d < b := by
    intro d hd
    rw [List.eq_of_mem_replicate hd]
    exact Nat.zero_lt_of_lt hb
  obtain ⟨ds, hfeed, hds, hvalue⟩ := feed_fits (Nat.zero_lt_of_lt hb) (Nat.zero_lt_of_lt hm) hempty
    hxs (by rw [hzero, List.length_replicate, Nat.zero_add, Nat.mul_one]; exact hsize)
  rw [hzero, Nat.mul_zero, Nat.zero_add] at hvalue
  exact ⟨ds, hfeed, hvalue ▸ dropWhile_reverse hb hds⟩

/-- The letters at the front of a text that stand for leading zeros. -/
theorem takeWhile_replicate_append {α : Type*} [DecidableEq α] {a : α} (z : ℕ) {xs : List α}
    (h : ∀ x ∈ xs.head?, x ≠ a) :
    (List.replicate z a ++ xs).takeWhile (· = a) = List.replicate z a ∧
      (List.replicate z a ++ xs).dropWhile (· = a) = xs := by
  induction z with
  | zero =>
    cases xs with
    | nil => exact ⟨rfl, rfl⟩
    | cons x xs =>
      have hx := h x rfl
      exact ⟨by simp [hx], by simp [hx]⟩
  | succ z ih =>
    rw [List.replicate_succ, List.cons_append, List.takeWhile_cons_of_pos (by simp),
      List.dropWhile_cons_of_pos (by simp), ih.1, ih.2]
    exact ⟨rfl, rfl⟩

end Positional
