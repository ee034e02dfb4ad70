import Mathlib.Data.List.Basic
import Mathlib.Data.Nat.Bitwise

/-! Flag bits packed into bytes, the least significant bit first. -/

namespace PackedBits

def getBit (bytes : List UInt8) (p : ℕ) : Bool :=
  (bytes.getD (p / 8) 0 &&& (1 <<< UInt8.ofNat (p % 8))) != 0

def orBit (bytes : List UInt8) (p : ℕ) (bit : Bool) : List UInt8 :=
  bytes.modify (p / 8) fun byte => byte ||| (UInt8.ofNat bit.toNat <<< UInt8.ofNat (p % 8))

def pack (bits : List Bool) : List UInt8 :=
  (List.range bits.length).foldl (fun bytes p => orBit bytes p (bits.getD p false))
    (List.replicate ((bits.length + 7) / 8) 0)

def unpack (bytes : List UInt8) : List Bool := (List.range (bytes.length * 8)).map (getBit bytes)

theorem bit_of_byte : ∀ (byte : UInt8) (k : Fin 8),
    ((byte &&& (1 <<< UInt8.ofNat k)) != 0) = byte.toNat.testBit k := by
  intro byte k
  have hbit : ∀ k : Fin 8, ((1 : UInt8) <<< UInt8.ofNat k).toNat = 2 ^ k.val := by decide
  have hzero : byte &&& (1 <<< UInt8.ofNat k) = 0 ↔ byte.toNat.testBit k = false := by
    rw [← UInt8.toNat_inj, UInt8.toNat_and, hbit, Nat.and_two_pow]
    cases byte.toNat.testBit k with
    | false => simp
    | true => simp
  rw [Bool.eq_iff_iff, bne_iff_ne, Ne, hzero, Bool.not_eq_false]

theorem toNat_bit : ∀ (bit : Bool) (k : Fin 8),
    (UInt8.ofNat bit.toNat <<< UInt8.ofNat k).toNat = bit.toNat <<< k.val := by decide

theorem testBit_bit (bit : Bool) (k j : ℕ) :
    (bit.toNat <<< k).testBit j = (decide (j = k) && bit) := by
  rw [Nat.testBit_shiftLeft]
  cases bit with
  | false => simp
  | true =>
    by_cases hjk : j = k
    · simp [hjk]
    · by_cases hle : k ≤ j
      · have hone : Nat.testBit 1 (j - k) = false := by
          rw [← Bool.not_eq_true, Nat.testBit_one_eq_true_iff_self_eq_zero]
          omega
        simp [hjk, hone]
      · simp [hjk, hle]

theorem getBit_eq (bytes : List UInt8) (p : ℕ) :
    getBit bytes p = (bytes.getD (p / 8) 0).toNat.testBit (p % 8) :=
  bit_of_byte _ ⟨p % 8, Nat.mod_lt p (by decide)⟩

theorem getBit_orBit {bytes : List UInt8} {p : ℕ} (hp : p / 8 < bytes.length) (bit : Bool) (q : ℕ) :
    getBit (orBit bytes p bit) q = (getBit bytes q || (decide (q = p) && bit)) := by
  rw [getBit_eq, getBit_eq, orBit, List.getD_eq_getElem?_getD, List.getElem?_modify,
    List.getD_eq_getElem?_getD]
  by_cases hbyte : p / 8 = q / 8
  · have hbits := toNat_bit bit ⟨p % 8, Nat.mod_lt p (by decide)⟩
    have hpq : (decide (q % 8 = p % 8) && bit) = (decide (q = p) && bit) := by
      congr 2
      exact propext ⟨fun h => by omega, fun h => by rw [h]⟩
    rw [← hbyte, List.getElem?_eq_getElem hp]
    simp only [if_true, Option.map_eq_map, Option.map_some, Option.getD_some, UInt8.toNat_or,
      Nat.testBit_or, hbits, testBit_bit, hpq]
  · have hne : q ≠ p := by
      rintro rfl
      exact hbyte rfl
    simp [hbyte, hne]

theorem pack_spec (bits : List Bool) {bytes : List UInt8} (hlen : bits.length ≤ bytes.length * 8)
    {m : ℕ} (hm : m ≤ bits.length) :
    ((List.range m).foldl (fun bytes p => orBit bytes p (bits.getD p false)) bytes).length =
        bytes.length ∧
      ∀ q, getBit
          ((List.range m).foldl (fun bytes p => orBit bytes p (bits.getD p false)) bytes) q =
        (getBit bytes q || (decide (q < m) && bits.getD q false)) := by
  induction m with
  | zero => simp
  | succ m ih =>
    obtain ⟨hlength, hbits⟩ := ih (by omega)
    rw [List.range_succ, List.foldl_append, List.foldl_cons, List.foldl_nil]
    refine ⟨by rw [orBit, List.length_modify, hlength], fun q => ?_⟩
    rw [getBit_orBit (by rw [hlength]; omega), hbits, Bool.or_assoc]
    congr 1
    by_cases hqm : q = m
    · simp [hqm]
    · have hlt : q < m + 1 ↔ q < m := by omega
      simp [hqm, hlt]

theorem length_pack (bits : List Bool) : (pack bits).length = (bits.length + 7) / 8 := by
  have h := (@pack_spec bits (List.replicate ((bits.length + 7) / 8) 0)
    (by rw [List.length_replicate]; omega) bits.length (Nat.le_refl _)).1
  rwa [List.length_replicate] at h

/-- Reading pads the bits with zeros to whole bytes. -/
theorem unpack_pack (bits : List Bool) : unpack (pack bits) =
    bits ++ List.replicate ((bits.length + 7) / 8 * 8 - bits.length) false := by
  have hlen : bits.length ≤ (List.replicate ((bits.length + 7) / 8) (0 : UInt8)).length * 8 := by
    rw [List.length_replicate]
    omega
  obtain ⟨-, hbits⟩ := pack_spec bits hlen (Nat.le_refl _)
  have hlength := length_pack bits
  refine List.ext_getElem? fun q => ?_
  rw [unpack, hlength, List.getElem?_map]
  by_cases hq : q < (bits.length + 7) / 8 * 8
  · have hzero : getBit (List.replicate ((bits.length + 7) / 8) 0) q = false := by
      have hbyte : q / 8 < (bits.length + 7) / 8 := by omega
      rw [getBit_eq, List.getD_eq_getElem?_getD, List.getElem?_replicate, if_pos hbyte]
      exact Nat.zero_testBit _
    have hget : getBit (pack bits) q = (decide (q < bits.length) && bits.getD q false) := by
      rw [pack, hbits, hzero, Bool.false_or]
    rw [List.getElem?_range hq, Option.map_some, hget]
    by_cases hin : q < bits.length
    · rw [List.getElem?_append_left hin, List.getElem?_eq_getElem hin]
      simp [hin]
    · rw [List.getElem?_append_right (by omega), List.getElem?_replicate, if_pos (by omega)]
      simp [hin]
  · rw [List.getElem?_eq_none (by simpa using hq), List.getElem?_eq_none]
    · rfl
    · rw [List.length_append, List.length_replicate]
      omega

/-- Bits that are set one after the other in a number. -/
theorem testBit_foldl_or (p : ℕ → Bool) (k i : ℕ) :
    ((List.range k).foldl (fun ch j => if p j then ch ||| 1 <<< j else ch) 0).testBit i =
      (decide (i < k) && p i) := by
  induction k with
  | zero => simp
  | succ k ih =>
    rw [List.range_succ, List.foldl_append, List.foldl_cons, List.foldl_nil]
    generalize (List.range k).foldl (fun ch j => if p j then ch ||| 1 <<< j else ch) 0 = ch at ih
    have hbit : (1 <<< k).testBit i = decide (k = i) := by
      rw [Nat.one_shiftLeft, Nat.testBit_two_pow]
    rcases Nat.lt_trichotomy i k with hlt | rfl | hgt
    · have hne : ¬k = i := by omega
      cases p k <;> simp [ih, hbit, hne, hlt, Nat.lt_succ_of_lt hlt]
    · cases hp : p i <;> simp [ih, hbit]
    · have hne : ¬k = i := by omega
      have hle : ¬i < k := by omega
      have hle' : ¬i < k + 1 := by omega
      cases p k <;> simp [ih, hbit, hne, hle, hle']

end PackedBits
