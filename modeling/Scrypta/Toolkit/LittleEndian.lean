import Mathlib.Algebra.Group.Nat.Defs
import Mathlib.Data.List.Basic

/-! Natural numbers as little-endian byte strings of a fixed width. -/

namespace LittleEndian

def encode : ℕ → ℕ → List UInt8
  | 0, _ => []
  | w + 1, x => UInt8.ofNat x :: encode w (x / 256)

def decode : List UInt8 → ℕ
  | [] => 0
  | b :: bs => b.toNat + 256 * decode bs

@[simp] theorem length_encode (w x : ℕ) : (encode w x).length = w := by
  induction w generalizing x with
  | zero => rfl
  | succ w ih => simp [encode, ih]

theorem decode_encode (w x : ℕ) : decode (encode w x) = x % 256 ^ w := by
  induction w generalizing x with
  | zero => simp [encode, decode, Nat.mod_one]
  | succ w ih =>
    have hb : (UInt8.ofNat x).toNat = x % 256 := rfl
    rw [encode, decode, ih, hb, Nat.pow_succ, Nat.mul_comm (256 ^ w), Nat.mod_mul]

theorem decode_encode_of_lt {w x : ℕ} (h : x < 256 ^ w) : decode (encode w x) = x := by
  rw [decode_encode, Nat.mod_eq_of_lt h]

theorem decode_lt (bs : List UInt8) : decode bs < 256 ^ bs.length := by
  induction bs with
  | nil => exact Nat.one_pos
  | cons b bs ih =>
    have hb := b.toNat_lt
    rw [decode, List.length_cons, Nat.pow_succ]
    omega

/-- Byte strings of one length are told apart by their numbers. -/
theorem decode_inj {a b : List UInt8} (hlen : a.length = b.length) (h : decode a = decode b) :
    a = b := by
  induction a generalizing b with
  | nil => exact (List.eq_nil_of_length_eq_zero hlen.symm).symm
  | cons x xs ih =>
    cases b with
    | nil => cases hlen
    | cons y ys =>
      have hx := x.toNat_lt
      have hy := y.toNat_lt
      rw [decode, decode] at h
      have hhead : x = y := UInt8.toNat_inj.1 (by omega)
      have htail : xs = ys := ih (Nat.succ.inj hlen) (by omega)
      rw [hhead, htail]

theorem encode_decode (bs : List UInt8) : encode bs.length (decode bs) = bs := by
  have hlen := length_encode bs.length (decode bs)
  exact decode_inj hlen (decode_encode_of_lt (decode_lt bs))

end LittleEndian
