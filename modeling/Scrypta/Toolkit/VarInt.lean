import Mathlib.Algebra.Group.Nat.Defs
import Mathlib.Data.List.Basic

/-! Numbers in groups of seven bits, the highest first, where every byte but the last has its
high bit set and stands for one more than its group. `w` is the width of the integer that is
written or read. -/

namespace VarInt

/-- Enough groups for a number of `w` bits. -/
def groups (w : ℕ) : ℕ := (w + 6) / 7

/-- The bytes from the lowest on; `flag` is added to the first of them. -/
def buffer : ℕ → ℕ → ℕ → List UInt8
  | 0, _, _ => []
  | k + 1, flag, n =>
    UInt8.ofNat (n % 128 + flag) :: if n ≤ 127 then [] else buffer k 128 (n / 128 - 1)

def write (w n : ℕ) : List UInt8 := (buffer (groups w) 0 n).reverse

/-- Reading from the number that the bytes so far stand for. -/
def readFrom (w : ℕ) : ℕ → List UInt8 → Option (ℕ × List UInt8)
  | _, [] => none
  | n, b :: bs =>
    let n := (n * 128 + b.toNat % 128) % 2 ^ w
    if 128 ≤ b.toNat then readFrom w ((n + 1) % 2 ^ w) bs else some (n, bs)

def read (w : ℕ) (bs : List UInt8) : Option (ℕ × List UInt8) := readFrom w 0 bs

theorem toNat_byte {n flag : ℕ} (h : n % 128 + flag < 256) :
    (UInt8.ofNat (n % 128 + flag)).toNat = n % 128 + flag := by
  simpa using Nat.mod_eq_of_lt h

theorem le_pow_groups (w : ℕ) : 2 ^ w ≤ 128 ^ groups w := by
  have hgroups : w ≤ 7 * groups w := by
    unfold groups
    omega
  calc 2 ^ w ≤ 2 ^ (7 * groups w) := Nat.pow_le_pow_right (by decide) hgroups
    _ = 128 ^ groups w := Nat.pow_mul 2 7 (groups w)

/-- A byte with its high bit set. -/
theorem readFrom_high {w m n : ℕ} (hm : m * 128 + n % 128 = n) (hw : n + 1 < 2 ^ w)
    (bs : List UInt8) :
    readFrom w m (UInt8.ofNat (n % 128 + 128) :: bs) = readFrom w (n + 1) bs := by
  have hbyte := toNat_byte (show n % 128 + 128 < 256 by omega)
  have hlow : (n % 128 + 128) % 128 = n % 128 := by omega
  have hle : 128 ≤ n % 128 + 128 := by omega
  rw [readFrom, hbyte, hlow, hm, Nat.mod_eq_of_lt (show n < 2 ^ w by omega),
    Nat.mod_eq_of_lt hw, if_pos hle]

/-- The last byte. -/
theorem readFrom_low {w m n : ℕ} (hm : m * 128 + n % 128 = n) (hw : n < 2 ^ w)
    (bs : List UInt8) : readFrom w m (UInt8.ofNat (n % 128 + 0) :: bs) = some (n, bs) := by
  have hbyte := toNat_byte (show n % 128 + 0 < 256 by omega)
  have hlow : (n % 128 + 0) % 128 = n % 128 := by omega
  have hlt : ¬ 128 ≤ n % 128 + 0 := by omega
  rw [readFrom, hbyte, hlow, hm, Nat.mod_eq_of_lt hw, if_neg hlt]

/-- The bytes of all groups but the last lead to one more than their number. -/
theorem readFrom_buffer {w k n : ℕ} (hk : n < 128 ^ (k + 1)) (hw : n + 1 < 2 ^ w)
    (bs : List UInt8) :
    readFrom w 0 ((buffer (k + 1) 128 n).reverse ++ bs) = readFrom w (n + 1) bs := by
  induction k generalizing n bs with
  | zero =>
    rw [Nat.zero_add, Nat.pow_one] at hk
    rw [buffer, if_pos (by omega)]
    exact readFrom_high (by omega) hw bs
  | succ k ih =>
    rw [buffer]
    split
    · exact readFrom_high (by omega) hw bs
    · next hn =>
      have hlt : n / 128 < 128 ^ (k + 1) := by
        apply Nat.div_lt_of_lt_mul
        rwa [Nat.mul_comm, ← Nat.pow_succ]
      rw [List.reverse_cons, List.append_assoc, List.singleton_append, ih (by omega) (by omega)]
      exact readFrom_high (by omega) hw bs

/-- A number of `w` bits is read back, and the bytes after it are left. -/
theorem read_write {w n : ℕ} (hw : 0 < w) (hn : n < 2 ^ w) (bs : List UInt8) :
    read w (write w n ++ bs) = some (n, bs) := by
  have hgroups := Nat.lt_of_lt_of_le hn (le_pow_groups w)
  unfold read write
  cases hg : groups w with
  | zero =>
    unfold groups at hg
    omega
  | succ k =>
    rw [hg] at hgroups
    rw [buffer]
    split
    · exact readFrom_low (by omega) hn bs
    · next h127 =>
      cases k with
      | zero =>
        rw [Nat.zero_add, Nat.pow_one] at hgroups
        omega
      | succ k =>
        have hlt : n / 128 < 128 ^ (k + 1) := by
          apply Nat.div_lt_of_lt_mul
          rwa [Nat.mul_comm, ← Nat.pow_succ]
        rw [List.reverse_cons, List.append_assoc, List.singleton_append,
          readFrom_buffer (by omega) (by omega)]
        exact readFrom_low (by omega) hn bs

theorem read_small {w : ℕ} {b : UInt8} (hw : 7 ≤ w) (hb : b.toNat < 128) (bs : List UInt8) :
    read w (b :: bs) = some (b.toNat, bs) := by
  have hpow : 2 ^ 7 ≤ 2 ^ w := Nat.pow_le_pow_right (by decide) hw
  rw [read, readFrom, if_neg (by omega), Nat.zero_mul, Nat.zero_add, Nat.mod_eq_of_lt hb,
    Nat.mod_eq_of_lt (by omega)]

theorem readFrom_lt {w m n : ℕ} {bs bs' : List UInt8} (h : readFrom w m bs = some (n, bs')) :
    n < 2 ^ w := by
  induction bs generalizing m with
  | nil => cases h
  | cons b bs ih =>
    rw [readFrom] at h
    split at h
    · exact ih h
    · obtain ⟨rfl, -⟩ := Prod.mk.inj (Option.some.inj h)
      exact Nat.mod_lt _ (Nat.two_pow_pos w)

/-! The number of bytes. -/

/-- The first number that takes more than so many bytes. -/
def limit : ℕ → ℕ
  | 0 => 0
  | k + 1 => 128 * (limit k + 1)

/-- The bytes counted without writing them; `none` where there would be more of them. -/
def sizeLoop : ℕ → ℕ → Option ℕ
  | 0, _ => none
  | k + 1, n => if n ≤ 127 then some 1 else (sizeLoop k (n / 128 - 1)).map (· + 1)

def sizeOf (w n : ℕ) : Option ℕ := sizeLoop (groups w) n

theorem pow_le_limit {k : ℕ} (hk : 0 < k) : 128 ^ k ≤ limit k := by
  induction k with
  | zero => exact absurd hk (Nat.lt_irrefl 0)
  | succ k ih =>
    cases k with
    | zero => exact Nat.le_refl 128
    | succ k =>
      have hle := ih (Nat.succ_pos k)
      rw [Nat.pow_succ, limit]
      omega

theorem lt_limit_groups {w n : ℕ} (hw : 0 < w) (hn : n < 2 ^ w) : n < limit (groups w) := by
  have hgroups : 0 < groups w := by
    unfold groups
    omega
  exact Nat.lt_of_lt_of_le hn (Nat.le_trans (le_pow_groups w) (pow_le_limit hgroups))

theorem length_buffer_le_iff {k flag n j : ℕ} (hj : j < k) :
    (buffer k flag n).length ≤ j ↔ n < limit j := by
  induction k generalizing flag n j with
  | zero => exact absurd hj (Nat.not_lt_zero j)
  | succ k ih =>
    cases j with
    | zero =>
      rw [buffer, List.length_cons]
      exact ⟨fun h => absurd h (by omega), fun h => absurd h (Nat.not_lt_zero n)⟩
    | succ j =>
      rw [buffer, List.length_cons, limit]
      split
      · rw [List.length_nil]
        omega
      · have hrest : (buffer k 128 (n / 128 - 1)).length ≤ j ↔ n / 128 - 1 < limit j :=
          ih (Nat.lt_of_succ_lt_succ hj)
        omega

theorem sizeLoop_eq {k flag n : ℕ} (h : n < limit k) :
    sizeLoop k n = some (buffer k flag n).length := by
  induction k generalizing flag n with
  | zero => exact absurd h (Nat.not_lt_zero n)
  | succ k ih =>
    rw [limit] at h
    rw [sizeLoop, buffer, List.length_cons]
    split
    · rfl
    · have hrest : sizeLoop k (n / 128 - 1) = some (buffer k 128 (n / 128 - 1)).length :=
        ih (by omega)
      rw [hrest]
      rfl

theorem length_buffer_le (k flag n : ℕ) : (buffer k flag n).length ≤ k := by
  induction k generalizing flag n with
  | zero => exact Nat.le_refl 0
  | succ k ih =>
    rw [buffer, List.length_cons]
    split
    · exact Nat.succ_le_succ (Nat.zero_le k)
    · exact Nat.succ_le_succ (ih _ _)

theorem length_write (w n : ℕ) : (write w n).length = (buffer (groups w) 0 n).length :=
  List.length_reverse

/-- The bytes that are counted are those that are written. -/
theorem sizeOf_eq {w n : ℕ} (hw : 0 < w) (hn : n < 2 ^ w) :
    sizeOf w n = some (write w n).length := by
  rw [length_write]
  exact sizeLoop_eq (lt_limit_groups hw hn)

theorem length_write_le_iff {w n j : ℕ} (hj : j < groups w) :
    (write w n).length ≤ j ↔ n < limit j := by
  rw [length_write]
  exact length_buffer_le_iff hj

theorem length_write_le (w n : ℕ) : (write w n).length ≤ groups w := by
  rw [length_write]
  exact length_buffer_le _ _ _

theorem length_write_le_length {w m n : ℕ} (h : ∀ j < groups w, n < limit j → m < limit j) :
    (write w m).length ≤ (write w n).length := by
  obtain hlt | heq := Nat.lt_or_eq_of_le (length_write_le w n)
  · rw [length_write_le_iff hlt]
    exact h _ hlt ((length_write_le_iff hlt).1 (Nat.le_refl _))
  · rw [heq]
    exact length_write_le w m

/-- Numbers take as many bytes when they are on the same side of every limit. -/
theorem length_write_eq_iff {w m n : ℕ} : (write w m).length = (write w n).length ↔
    ∀ j < groups w, (m < limit j ↔ n < limit j) := by
  constructor
  · intro h j hj
    rw [← length_write_le_iff hj, h, length_write_le_iff hj]
  · intro h
    exact Nat.le_antisymm (length_write_le_length fun j hj => (h j hj).2)
      (length_write_le_length fun j hj => (h j hj).1)

/-! A sequence of groups that ends with its first byte below 128 is what is written for its
number. -/

/-- The groups from the lowest on, each of them one more. -/
def highValue : List UInt8 → ℕ
  | [] => 0
  | b :: bs => b.toNat % 128 + 1 + 128 * highValue bs

/-- The number of a sequence with these bytes before its last one. -/
def value (highs : List UInt8) (last : UInt8) : ℕ :=
  last.toNat % 128 + 128 * highValue highs.reverse

/-- The bytes in an array that has room for so many; `none` where it has none for the next one. -/
def bufferIn : ℕ → ℕ → ℕ → Option (List UInt8)
  | 0, _, _ => none
  | k + 1, flag, n =>
    if n ≤ 127 then some [UInt8.ofNat (n % 128 + flag)]
    else (bufferIn k 128 (n / 128 - 1)).map (UInt8.ofNat (n % 128 + flag) :: ·)

def writeIn (w n : ℕ) : Option (List UInt8) := (bufferIn (groups w) 0 n).map List.reverse

theorem bufferIn_eq {k flag n : ℕ} (h : n < limit k) :
    bufferIn k flag n = some (buffer k flag n) := by
  induction k generalizing flag n with
  | zero => exact absurd h (Nat.not_lt_zero n)
  | succ k ih =>
    rw [limit] at h
    rw [bufferIn, buffer]
    split
    · rfl
    · rw [ih (by omega)]
      rfl

/-- A number of the width fits into the array. -/
theorem writeIn_eq {w n : ℕ} (hw : 0 < w) (hn : n < 2 ^ w) : writeIn w n = some (write w n) := by
  rw [writeIn, bufferIn_eq (lt_limit_groups hw hn)]
  rfl

theorem ofNat_byte {b : UInt8} {n flag : ℕ} (h : b.toNat = n + flag) :
    UInt8.ofNat (n + flag) = b := by
  rw [← h]
  exact UInt8.ofNat_toNat

theorem highValue_pos (b : UInt8) (bs : List UInt8) : 0 < highValue (b :: bs) := by
  unfold highValue
  omega

/-- The bytes with their high bits set are those of their number. -/
theorem buffer_highValue {bs : List UInt8} (hne : bs ≠ []) (hhigh : ∀ b ∈ bs, 128 ≤ b.toNat)
    {k : ℕ} (h : highValue bs - 1 < limit k) : buffer k 128 (highValue bs - 1) = bs := by
  induction bs generalizing k with
  | nil => exact absurd rfl hne
  | cons b bs ih =>
    have hb := hhigh b List.mem_cons_self
    have hlt := b.toNat_lt
    cases k with
    | zero => exact absurd h (Nat.not_lt_zero _)
    | succ k =>
      rw [limit] at h
      have hrest : ∀ c ∈ bs, 128 ≤ c.toNat := fun c hc => hhigh c (List.mem_cons_of_mem b hc)
      have hnumber : highValue (b :: bs) - 1 = b.toNat % 128 + 128 * highValue bs := by
        rw [highValue]
        omega
      rw [hnumber] at h ⊢
      have hmod : (b.toNat % 128 + 128 * highValue bs) % 128 = b.toNat % 128 := by omega
      rw [buffer, hmod, ofNat_byte (show b.toNat = b.toNat % 128 + 128 by omega)]
      cases bs with
      | nil => rw [if_pos (by rw [highValue]; omega)]
      | cons c cs =>
        have hpos := highValue_pos c cs
        have hdiv : (b.toNat % 128 + 128 * highValue (c :: cs)) / 128 - 1 =
            highValue (c :: cs) - 1 := by omega
        rw [if_neg (by omega), hdiv, ih (List.cons_ne_nil c cs) hrest (by omega)]

theorem write_value {w : ℕ} (hw : 0 < w) {highs : List UInt8} {last : UInt8}
    (hhigh : ∀ b ∈ highs, 128 ≤ b.toNat) (hlast : last.toNat < 128)
    (h : value highs last < 2 ^ w) : write w (value highs last) = highs ++ [last] := by
  have hlimit := lt_limit_groups hw h
  rw [write]
  cases hk : groups w with
  | zero =>
    unfold groups at hk
    omega
  | succ k =>
    rw [hk, limit] at hlimit
    unfold value at hlimit ⊢
    have hmod : (last.toNat % 128 + 128 * highValue highs.reverse) % 128 = last.toNat := by omega
    rw [buffer, hmod, ofNat_byte (show last.toNat = last.toNat + 0 from rfl)]
    rcases List.eq_nil_or_concat highs with rfl | ⟨init, b, rfl⟩
    · rw [if_pos (by rw [List.reverse_nil, highValue]; omega)]
      rfl
    · have hne : (init.concat b).reverse ≠ [] := by simp
      have hrev : ∀ c ∈ (init.concat b).reverse, 128 ≤ c.toNat := fun c hc =>
        hhigh c (List.mem_reverse.1 hc)
      have hpos : 0 < highValue (init.concat b).reverse := by
        rw [List.concat_eq_append, List.reverse_append]
        exact highValue_pos _ _
      have hdiv : (last.toNat % 128 + 128 * highValue (init.concat b).reverse) / 128 - 1 =
          highValue (init.concat b).reverse - 1 := by omega
      rw [if_neg (by omega), hdiv, buffer_highValue hne hrev (by omega), List.reverse_cons,
        List.reverse_reverse]

end VarInt
