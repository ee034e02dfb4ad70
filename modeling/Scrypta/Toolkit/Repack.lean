import Scrypta.Toolkit.Positional

/-! Digits of `u` bits written again as digits of `w` bits, the highest bit first, with the bits
that do not fill a digit yet kept back. -/

namespace Repack

open Positional (read)

/-- The digits `ys` and then the `k` bits of `acc` are the digits `xs`. -/
structure Repacked (u w : ℕ) (xs ys : List ℕ) (k acc : ℕ) : Prop where
  value : read (2 ^ u) xs = read (2 ^ w) ys * 2 ^ k + acc
  bits : u * xs.length = w * ys.length + k
  acc_lt : acc < 2 ^ k
  left_lt : ∀ x ∈ xs, x < 2 ^ u
  right_lt : ∀ y ∈ ys, y < 2 ^ w

variable {u w k acc x : ℕ} {xs ys : List ℕ}

theorem Repacked.empty (u w : ℕ) : Repacked u w [] [] 0 0 :=
  ⟨rfl, rfl, Nat.one_pos, by simp, by simp⟩

theorem read_append_singleton (m : ℕ) (xs : List ℕ) (x : ℕ) :
    read m (xs ++ [x]) = read m xs * m + x := by
  rw [Positional.read, List.reverse_append, List.reverse_singleton, List.singleton_append,
    Nat.ofDigits_cons, Nat.add_comm, Nat.mul_comm]
  rfl

theorem Repacked.push (h : Repacked u w xs ys k acc) (hx : x < 2 ^ u) :
    Repacked u w (xs ++ [x]) ys (k + u) (acc * 2 ^ u + x) := by
  refine ⟨?_, ?_, ?_, ?_, h.right_lt⟩
  · rw [read_append_singleton, h.value, pow_add]
    ring
  · rw [List.length_append, List.length_singleton, Nat.mul_add, h.bits]
    omega
  · calc acc * 2 ^ u + x < acc * 2 ^ u + 2 ^ u := Nat.add_lt_add_left hx _
      _ = (acc + 1) * 2 ^ u := by ring
      _ ≤ 2 ^ k * 2 ^ u := Nat.mul_le_mul_right _ h.acc_lt
      _ = 2 ^ (k + u) := (pow_add 2 k u).symm
  · intro y hy
    rcases List.mem_append.mp hy with hy | hy
    · exact h.left_lt y hy
    · exact List.mem_singleton.mp hy ▸ hx

theorem Repacked.emit {j : ℕ} (h : Repacked u w xs ys (w + j) acc) :
    Repacked u w xs (ys ++ [acc / 2 ^ j]) j (acc % 2 ^ j) := by
  refine ⟨?_, ?_, Nat.mod_lt _ (Nat.two_pow_pos j), h.left_lt, ?_⟩
  · have hsplit := Nat.div_add_mod acc (2 ^ j)
    calc read (2 ^ u) xs
        = read (2 ^ w) ys * 2 ^ (w + j) + (2 ^ j * (acc / 2 ^ j) + acc % 2 ^ j) := by
          rw [hsplit, h.value]
      _ = read (2 ^ w) (ys ++ [acc / 2 ^ j]) * 2 ^ j + acc % 2 ^ j := by
          rw [read_append_singleton, pow_add]
          ring
  · rw [List.length_append, List.length_singleton, Nat.mul_add, h.bits]
    omega
  · intro y hy
    rcases List.mem_append.mp hy with hy | hy
    · exact h.right_lt y hy
    · rw [List.mem_singleton.mp hy]
      exact Nat.div_lt_of_lt_mul (by rw [← pow_add, Nat.add_comm]; exact h.acc_lt)

/-- The high bits of a digit go to the end of the bits that are kept back. -/
theorem or_shiftRight {j i : ℕ} (hx : x < 2 ^ (j + i)) :
    (acc <<< i) ||| (x >>> j) = (acc * 2 ^ (j + i) + x) / 2 ^ j := by
  have hlow : x / 2 ^ j < 2 ^ i := Nat.div_lt_of_lt_mul (by rwa [← pow_add])
  rw [Nat.shiftRight_eq_div_pow, ← Nat.shiftLeft_add_eq_or_of_lt hlow, Nat.shiftLeft_eq, pow_add,
    Nat.mul_left_comm, Nat.mul_add_div (Nat.two_pow_pos j)]

/-- The low bits of a digit are kept back. -/
theorem and_low (acc x j i : ℕ) : x &&& (2 ^ j - 1) = (acc * 2 ^ (j + i) + x) % 2 ^ j := by
  rw [Nat.and_two_pow_sub_one_eq_mod, pow_add, Nat.mul_left_comm, Nat.mul_add_mod]

/-- A digit that fills one: the bits kept back and its own high bits. -/
theorem Repacked.pushEmit {j i : ℕ} (hu : u = j + i) (h : Repacked u w xs ys k acc)
    (hx : x < 2 ^ u) (hk : k + u = w + j) :
    Repacked u w (xs ++ [x]) (ys ++ [(acc <<< i) ||| (x >>> j)]) j (x &&& (2 ^ j - 1)) := by
  subst hu
  rw [or_shiftRight hx, and_low acc x j i]
  have hpush := h.push hx
  rw [hk] at hpush
  exact hpush.emit

/-- The low bits of a digit, where they fill another one. -/
theorem Repacked.emitLow {j : ℕ} (h : Repacked u w xs ys (w + j) (x &&& (2 ^ (w + j) - 1))) :
    Repacked u w xs (ys ++ [(x >>> j) &&& (2 ^ w - 1)]) j (x &&& (2 ^ j - 1)) := by
  have hdigit : (x >>> j) &&& (2 ^ w - 1) = (x &&& (2 ^ (w + j) - 1)) / 2 ^ j := by
    rw [Nat.and_two_pow_sub_one_eq_mod, Nat.and_two_pow_sub_one_eq_mod,
      Nat.shiftRight_eq_div_pow, Nat.add_comm w j, pow_add, Nat.mod_mul_right_div_self]
  have hkept : x &&& (2 ^ j - 1) = (x &&& (2 ^ (w + j) - 1)) % 2 ^ j := by
    rw [Nat.and_two_pow_sub_one_eq_mod, Nat.and_two_pow_sub_one_eq_mod,
      Nat.mod_mod_of_dvd _ (pow_dvd_pow 2 (Nat.le_add_left j w))]
  rw [hdigit, hkept]
  exact h.emit

/-- A digit that does not fill one. -/
theorem Repacked.keep (h : Repacked u w xs ys k acc) (hx : x < 2 ^ u) :
    Repacked u w (xs ++ [x]) ys (k + u) ((acc <<< u) ||| x) := by
  rw [← Nat.shiftLeft_add_eq_or_of_lt hx, Nat.shiftLeft_eq]
  exact h.push hx

/-- The bits kept back are filled up with zeros. -/
theorem Repacked.fill {p : ℕ} (h : Repacked u w xs ys k acc) (hk : k + p = w) :
    Repacked w u (ys ++ [acc <<< p]) xs p 0 := by
  refine ⟨?_, ?_, Nat.two_pow_pos p, ?_, h.left_lt⟩
  · rw [read_append_singleton, h.value, Nat.shiftLeft_eq, ← hk, pow_add]
    ring
  · rw [List.length_append, List.length_singleton, Nat.mul_add, h.bits]
    omega
  · intro y hy
    rcases List.mem_append.mp hy with hy | hy
    · exact h.right_lt y hy
    · rw [List.mem_singleton.mp hy, Nat.shiftLeft_eq, ← hk, pow_add]
      exact Nat.mul_lt_mul_of_pos_right h.acc_lt (Nat.two_pow_pos p)

theorem Repacked.symm (h : Repacked u w xs ys 0 0) : Repacked w u ys xs 0 0 :=
  ⟨by simpa using h.value.symm, by simpa using h.bits.symm, Nat.one_pos, h.right_lt, h.left_lt⟩

theorem read_inj {xs' : List ℕ} (hw : 0 < w) (hlen : xs.length = xs'.length)
    (hxs : ∀ x ∈ xs, x < 2 ^ w) (hxs' : ∀ x ∈ xs', x < 2 ^ w)
    (h : read (2 ^ w) xs = read (2 ^ w) xs') : xs = xs' := by
  have hback := Nat.ofDigits_inj_of_len_eq (Nat.one_lt_two_pow hw.ne')
    (by rw [List.length_reverse, List.length_reverse, hlen])
    (fun x hx => hxs x (List.mem_reverse.mp hx)) (fun x hx => hxs' x (List.mem_reverse.mp hx)) h
  exact List.reverse_injective hback

/-- Digits are unpacked in one way. -/
theorem Repacked.right_unique {ys' : List ℕ} {p : ℕ} (h : Repacked u w xs ys k acc)
    (h' : Repacked u w xs ys' p 0) (hk : k < w) (hp : p < w) : k = p ∧ acc = 0 ∧ ys = ys' := by
  have hbits := h.bits.symm.trans h'.bits
  have hmod : k = p := by
    have hleft := congrArg (· % w) hbits
    simpa only [Nat.mul_add_mod, Nat.mod_eq_of_lt hk, Nat.mod_eq_of_lt hp] using hleft
  subst hmod
  have hlen : ys.length = ys'.length :=
    Nat.eq_of_mul_eq_mul_left (Nat.zero_lt_of_lt hk) (Nat.add_right_cancel hbits)
  have hvalue := h.value.symm.trans h'.value
  rw [Nat.add_zero, Nat.mul_comm, Nat.mul_comm _ (2 ^ k)] at hvalue
  have hacc : acc = 0 := by
    have hleft := congrArg (· % 2 ^ k) hvalue
    simpa only [Nat.mul_add_mod, Nat.mul_mod_right, Nat.mod_eq_of_lt h.acc_lt] using hleft
  rw [hacc, Nat.add_zero] at hvalue
  exact ⟨rfl, hacc, read_inj (Nat.zero_lt_of_lt hk) hlen h.right_lt h'.right_lt
    (Nat.eq_of_mul_eq_mul_left (Nat.two_pow_pos k) hvalue)⟩

/-- Digits with less than a digit of zeros at their end are packed in one way. -/
theorem Repacked.left_unique {xs' : List ℕ} {p : ℕ} (h : Repacked u w xs ys k 0)
    (h' : Repacked u w xs' ys p 0) (hk : k < u) (hp : p < u) : k = p ∧ xs = xs' := by
  have hbits := h.bits
  have hbits' := h'.bits
  have hlen : xs.length = xs'.length := by
    have hclose : u * xs.length < u * (xs'.length + 1) := by
      rw [Nat.mul_add]
      omega
    have hclose' : u * xs'.length < u * (xs.length + 1) := by
      rw [Nat.mul_add]
      omega
    have hlt := Nat.lt_of_mul_lt_mul_left hclose
    have hlt' := Nat.lt_of_mul_lt_mul_left hclose'
    omega
  have hmod : k = p := by
    rw [hlen] at hbits
    omega
  subst hmod
  exact ⟨rfl, read_inj (Nat.zero_lt_of_lt hk) hlen h.left_lt h'.left_lt
    (h.value.trans h'.value.symm)⟩

end Repack
