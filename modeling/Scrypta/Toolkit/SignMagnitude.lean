import Mathlib.Tactic.Linarith
import Mathlib.Tactic.Ring
import Scrypta.Toolkit.LittleEndian

/-! Signed numbers as little-endian byte strings, with the sign in the top bit of the last byte.
A string is minimal when no shorter one has its value; every value has one minimal string. -/

namespace SignMagnitude

open LittleEndian

/-- What the top bit of a string of `len` bytes counts. -/
def signBit (len : ℕ) : ℕ := 128 * 256 ^ (len - 1)

def magnitude (bs : List UInt8) : ℕ := decode bs % signBit bs.length

def negative (bs : List UInt8) : Prop := signBit bs.length ≤ decode bs

instance (bs : List UInt8) : Decidable (negative bs) :=
  inferInstanceAs (Decidable (signBit bs.length ≤ decode bs))

def value (bs : List UInt8) : ℤ := if negative bs then -magnitude bs else magnitude bs

/-- The smallest magnitude that needs `len` bytes. -/
def least : ℕ → ℕ
  | 0 => 0
  | 1 => 1
  | len + 2 => 128 * 256 ^ len

def Minimal (bs : List UInt8) : Prop := least bs.length ≤ magnitude bs

variable {bs bs' : List UInt8}

theorem signBit_pos (len : ℕ) : 0 < signBit len :=
  Nat.mul_pos (by decide) (Nat.pow_pos (by decide))

/-- The top bit is half of what the bytes can count to. -/
theorem two_mul_signBit {len : ℕ} (h : 0 < len) : 2 * signBit len = 256 ^ len := by
  obtain ⟨k, rfl⟩ := Nat.exists_eq_succ_of_ne_zero h.ne'
  rw [signBit, Nat.succ_sub_one, Nat.pow_succ]
  ring

theorem least_lt_succ (len : ℕ) : least len < least (len + 1) := by
  match len with
  | 0 => decide
  | 1 => decide
  | len + 2 =>
    rw [least, least, Nat.pow_succ]
    have hpos : 0 < 256 ^ len := Nat.pow_pos (by decide)
    omega

theorem least_strictMono : StrictMono least := strictMono_nat_of_lt_succ least_lt_succ

theorem magnitude_lt (bs : List UInt8) : magnitude bs < least (bs.length + 1) := by
  cases bs with
  | nil => decide
  | cons b bs =>
    have hlt := Nat.mod_lt (decode (b :: bs)) (signBit_pos (b :: bs).length)
    exact hlt

theorem natAbs_value (bs : List UInt8) : (value bs).natAbs = magnitude bs := by
  unfold value
  split <;> omega

/-- A string is its magnitude with the sign above it. -/
theorem decode_eq (h : bs ≠ []) :
    decode bs = magnitude bs + if negative bs then signBit bs.length else 0 := by
  have hlt := decode_lt bs
  have htwo := two_mul_signBit (List.length_pos_iff.2 h)
  by_cases hneg : negative bs
  · have hle : signBit bs.length ≤ decode bs := hneg
    rw [if_pos hneg, magnitude, Nat.mod_eq_sub_mod hle, Nat.mod_eq_of_lt (by omega)]
    omega
  · have hle : ¬signBit bs.length ≤ decode bs := hneg
    rw [if_neg hneg, magnitude, Nat.mod_eq_of_lt (by omega), Nat.add_zero]

theorem of_decode_eq {m : ℕ} (hm : m < signBit bs.length) (h : decode bs = m) :
    magnitude bs = m ∧ value bs = m := by
  have hneg : ¬negative bs := by
    unfold negative
    omega
  have hmag : magnitude bs = m := by rw [magnitude, h, Nat.mod_eq_of_lt hm]
  rw [value, if_neg hneg, hmag]
  exact ⟨rfl, rfl⟩

theorem of_decode_eq_add {m : ℕ} (hm : m < signBit bs.length)
    (h : decode bs = m + signBit bs.length) : magnitude bs = m ∧ value bs = -m := by
  have hneg : negative bs := by
    unfold negative
    omega
  have hmag : magnitude bs = m := by rw [magnitude, h, Nat.add_mod_right, Nat.mod_eq_of_lt hm]
  rw [value, if_pos hneg, hmag]
  exact ⟨rfl, rfl⟩

theorem Minimal.length_eq (h : Minimal bs) (h' : Minimal bs')
    (heq : magnitude bs = magnitude bs') : bs.length = bs'.length := by
  have hlt := magnitude_lt bs
  have hlt' := magnitude_lt bs'
  have hle := least_strictMono.lt_iff_lt.1 (lt_of_le_of_lt (h.trans heq.le) hlt')
  have hle' := least_strictMono.lt_iff_lt.1 (lt_of_le_of_lt (h'.trans heq.ge) hlt)
  omega

theorem Minimal.magnitude_pos (h : Minimal bs) (hne : bs ≠ []) : 0 < magnitude bs := by
  have hlen := List.length_pos_iff.2 hne
  exact lt_of_lt_of_le (least_strictMono hlen) h

/-- Minimal strings are told apart by their values. -/
theorem Minimal.eq_of_value_eq (h : Minimal bs) (h' : Minimal bs') (heq : value bs = value bs') :
    bs = bs' := by
  have hmag : magnitude bs = magnitude bs' := by
    rw [← natAbs_value, heq, natAbs_value]
  have hlen := h.length_eq h' hmag
  by_cases hnil : bs = []
  · rw [hnil, List.length_nil] at hlen
    rw [hnil, List.eq_nil_of_length_eq_zero hlen.symm]
  · have hnil' : bs' ≠ [] := fun hnil' => by
      rw [hnil', List.length_nil] at hlen
      exact hnil (List.eq_nil_of_length_eq_zero hlen)
    have hpos := h.magnitude_pos hnil
    have hsign : negative bs ↔ negative bs' := by
      unfold value at heq
      split_ifs at heq with hneg hneg' hneg'
      · exact iff_of_true hneg hneg'
      · omega
      · omega
      · exact iff_of_false hneg hneg'
    refine decode_inj hlen ?_
    rw [decode_eq hnil, decode_eq hnil', hmag, hlen]
    simp only [hsign]

end SignMagnitude
