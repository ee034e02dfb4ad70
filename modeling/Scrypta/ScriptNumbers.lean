import Scrypta.StackSafety
import Scrypta.Toolkit.SignMagnitude

/-! Numbers of scripts have one minimal encoding. -/

namespace Scrypta.Interpreter.CScriptNum

open LittleEndian ScriptNum

/-- The loop of `set_vch`, with the bytes from the `i`th on. -/
def setVchLoop : ℕ → Bytes → BitVec 64 → BitVec 64
  | _, [], result => result
  | i, b :: vch, result => setVchLoop (i + 1) vch (result ||| BitVec.ofNat 64 b.toNat <<< (8 * i))

/-- `set_vch` on 64-bit integers. -/
def setVch64 (vch : Bytes) : BitVec 64 :=
  match vch.getLast? with
  | none => 0
  | some back =>
    let result := setVchLoop 0 vch 0
    if back &&& 0x80 ≠ 0 then -(result &&& ~~~(0x80#64 <<< (8 * (vch.length - 1)))) else result

section Decoding

variable {vch : Bytes} {i : ℕ} {result : BitVec 64}

theorem pow_256 (i : ℕ) : 256 ^ i = 2 ^ (8 * i) := by
  rw [Nat.pow_mul]

theorem toNat_or_shiftLeft (b : UInt8) (hi : i < 8) (h : result.toNat < 256 ^ i) :
    (result ||| BitVec.ofNat 64 b.toNat <<< (8 * i)).toNat = result.toNat + 256 ^ i * b.toNat := by
  have hb := b.toNat_lt
  rw [pow_256] at h ⊢
  have hfits : b.toNat * 2 ^ (8 * i) < 2 ^ 64 := by
    calc b.toNat * 2 ^ (8 * i) < 2 ^ 8 * 2 ^ (8 * i) :=
          Nat.mul_lt_mul_of_pos_right hb (Nat.two_pow_pos _)
      _ = 2 ^ (8 + 8 * i) := (Nat.pow_add 2 8 (8 * i)).symm
      _ ≤ 2 ^ 64 := Nat.pow_le_pow_right (by decide) (by omega)
  rw [BitVec.toNat_or, BitVec.toNat_shiftLeft, BitVec.toNat_ofNat, Nat.shiftLeft_eq,
    Nat.mod_eq_of_lt (show b.toNat < 2 ^ 64 by omega), Nat.mod_eq_of_lt hfits, Nat.or_comm,
    Nat.mul_comm, ← Nat.two_pow_add_eq_or_of_lt h]
  exact Nat.add_comm _ _

/-- The bytes make up a number of 64 bits. -/
theorem toNat_setVchLoop (hlen : i + vch.length ≤ 8) (h : result.toNat < 256 ^ i) :
    (setVchLoop i vch result).toNat = result.toNat + 256 ^ i * decode vch := by
  induction vch generalizing i result with
  | nil => simp [setVchLoop, decode]
  | cons b vch ih =>
    rw [List.length_cons] at hlen
    have hstep := toNat_or_shiftLeft b (by omega) h
    have hb := b.toNat_lt
    have hlt : (result ||| BitVec.ofNat 64 b.toNat <<< (8 * i)).toNat < 256 ^ (i + 1) := by
      rw [hstep, Nat.pow_succ]
      have hle : 256 ^ i * b.toNat ≤ 256 ^ i * 255 := Nat.mul_le_mul_left _ (by omega)
      omega
    rw [setVchLoop, ih (by omega) hlt, hstep, decode, Nat.pow_succ]
    ring

/-- Clearing a bit that is set. -/
theorem and_not_twoPow {m k : ℕ} (hm : m < 2 ^ k) :
    BitVec.ofNat 64 (m + 2 ^ k) &&& ~~~BitVec.twoPow 64 k = BitVec.ofNat 64 m := by
  apply BitVec.eq_of_getLsbD_eq
  intro j hj
  have hor : m + 2 ^ k = 2 ^ k ||| m := by
    have hadd := Nat.two_pow_add_eq_or_of_lt hm 1
    rwa [Nat.mul_one, Nat.add_comm] at hadd
  rw [hor, BitVec.getLsbD_and, BitVec.getLsbD_not, BitVec.getLsbD_twoPow, BitVec.getLsbD_ofNat,
    BitVec.getLsbD_ofNat, Nat.testBit_or, Nat.testBit_two_pow]
  by_cases hjk : k = j
  · subst hjk
    simp [hj, Nat.testBit_lt_two_pow hm]
  · simp [hj, hjk]

theorem toInt_ofNat_of_lt {m : ℕ} (h : m < 2 ^ 63) : (BitVec.ofNat 64 m).toInt = m := by
  rw [BitVec.toInt_ofNat']
  exact Int.bmod_eq_of_le (by omega) (by omega)

theorem toInt_neg_ofNat {m : ℕ} (h : m < 2 ^ 63) : (-BitVec.ofNat 64 m).toInt = -m := by
  rw [BitVec.toInt_neg, toInt_ofNat_of_lt h]
  exact Int.bmod_eq_of_le (by omega) (by omega)

/-- Up to eight bytes, `set_vch` gives the number that they stand for. -/
theorem toInt_setVch64 (h : vch.length ≤ 8) : (setVch64 vch).toInt = setVch vch := by
  cases vch using List.reverseRecOn with
  | nil => rfl
  | append_singleton vch b =>
    have hlow := decode_lt vch
    have hb := b.toNat_lt
    rw [List.length_append, List.length_singleton] at h
    have hresult : setVchLoop 0 (vch ++ [b]) 0 = BitVec.ofNat 64 (decode (vch ++ [b])) := by
      apply BitVec.eq_of_toNat_eq
      have hloop : (setVchLoop 0 (vch ++ [b]) 0).toNat =
          (0 : BitVec 64).toNat + 256 ^ 0 * decode (vch ++ [b]) :=
        toNat_setVchLoop (by rw [List.length_append, List.length_singleton]; omega) (by decide)
      have hlt := decode_lt (vch ++ [b])
      have hpow : 256 ^ (vch ++ [b]).length ≤ 256 ^ 8 :=
        Nat.pow_le_pow_right (by decide) (by rw [List.length_append, List.length_singleton]; omega)
      rw [BitVec.toNat_ofNat, Nat.mod_eq_of_lt (by omega), hloop]
      simp
    have hbit : 128 * 256 ^ vch.length = 2 ^ (8 * vch.length + 7) := by
      rw [pow_256, Nat.pow_add]
      ring
    have hhalf : 128 * 256 ^ vch.length ≤ 2 ^ 63 := by
      rw [hbit]
      exact Nat.pow_le_pow_right (by decide) (by omega)
    have hmask : (0x80#64 <<< (8 * vch.length)) = BitVec.twoPow 64 (8 * vch.length + 7) := by
      change (1#64 <<< 7) <<< (8 * vch.length) = 1#64 <<< (8 * vch.length + 7)
      rw [← BitVec.shiftLeft_add, Nat.add_comm]
    rw [setVch64, setVch, List.getLast?_concat, hresult, List.length_append,
      List.length_singleton, Nat.add_sub_cancel, hmask]
    dsimp only
    by_cases hsign : b &&& 0x80 ≠ 0
    · have hb128 := (and_0x80 b).1 hsign
      obtain ⟨r, hr⟩ := Nat.exists_eq_add_of_le hb128
      have hdecode : decode (vch ++ [b]) = decode vch + r * 256 ^ vch.length +
          2 ^ (8 * vch.length + 7) := by
        rw [decode_concat, hr, ← hbit]
        ring
      have hm : decode vch + r * 256 ^ vch.length < 2 ^ (8 * vch.length + 7) := by
        have hle : r * 256 ^ vch.length ≤ 127 * 256 ^ vch.length :=
          Nat.mul_le_mul_right _ (by omega)
        omega
      rw [if_pos hsign, if_pos hsign, hdecode, and_not_twoPow hm, toInt_neg_ofNat (by omega)]
      have hcast : (0x80 : ℤ) * 256 ^ vch.length = (2 ^ (8 * vch.length + 7) : ℕ) := by
        rw [← hbit]
        push_cast
        rfl
      rw [hcast]
      push_cast
      ring
    · have hb128 := (not_congr (and_0x80 b)).1 hsign
      have hm : decode (vch ++ [b]) < 2 ^ 63 := by
        have hle : b.toNat * 256 ^ vch.length ≤ 127 * 256 ^ vch.length :=
          Nat.mul_le_mul_right _ (by omega)
        rw [decode_concat]
        omega
      rw [if_neg hsign, if_neg hsign, toInt_ofNat_of_lt hm]

end Decoding

section Minimal

open SignMagnitude (value signBit least)

/-- Without its sign a string counts its last byte modulo 128. -/
theorem of_concat (vch : Bytes) (b : UInt8) :
    SignMagnitude.magnitude (vch ++ [b]) = decode vch + b.toNat % 128 * 256 ^ vch.length ∧
      setVch (vch ++ [b]) = value (vch ++ [b]) := by
  have hlow := decode_lt vch
  have hb := b.toNat_lt
  have hbit : signBit (vch ++ [b]).length = 128 * 256 ^ vch.length := by
    rw [signBit, List.length_append, List.length_singleton, Nat.add_sub_cancel]
  have hle : b.toNat % 128 * 256 ^ vch.length ≤ 127 * 256 ^ vch.length :=
    Nat.mul_le_mul_right _ (by omega)
  rw [setVch, List.getLast?_concat, List.length_append, List.length_singleton, Nat.add_sub_cancel]
  dsimp only
  by_cases hsign : b &&& 0x80 ≠ 0
  · have hb128 := (and_0x80 b).1 hsign
    have hdecode : decode (vch ++ [b]) = decode vch + b.toNat % 128 * 256 ^ vch.length +
        signBit (vch ++ [b]).length := by
      rw [decode_concat, hbit, Nat.add_assoc, ← Nat.add_mul]
      congr 2
      omega
    obtain ⟨hmag, hvalue⟩ := SignMagnitude.of_decode_eq_add (by omega) hdecode
    rw [if_pos hsign, hmag, hvalue, hdecode, hbit]
    refine ⟨rfl, ?_⟩
    push_cast
    ring
  · have hb128 := (not_congr (and_0x80 b)).1 hsign
    have hdecode : decode (vch ++ [b]) = decode vch + b.toNat % 128 * 256 ^ vch.length := by
      rw [decode_concat, Nat.mod_eq_of_lt (by omega)]
    obtain ⟨hmag, hvalue⟩ := SignMagnitude.of_decode_eq (by omega) hdecode
    rw [if_neg hsign, hmag, hvalue, hdecode]
    exact ⟨rfl, rfl⟩

theorem setVch_eq_value (vch : Bytes) : setVch vch = value vch := by
  cases vch using List.reverseRecOn with
  | nil => rfl
  | append_singleton vch b => exact (of_concat vch b).2

set_option maxRecDepth 2000 in
theorem and_0x7f (b : UInt8) : b &&& 0x7f = 0 ↔ b.toNat % 128 = 0 := by
  have h : ∀ x : Fin 256, UInt8.ofFin x &&& 0x7f = 0 ↔ x.val % 128 = 0 := by decide
  exact h b.toFin

/-- The test of the constructor is that no shorter string has the value. -/
theorem isMinimal_iff (vch : Bytes) : isMinimal vch = true ↔ SignMagnitude.Minimal vch := by
  cases vch using List.reverseRecOn with
  | nil => exact iff_of_true rfl (Nat.le_refl 0)
  | append_singleton vch b =>
    have hmag := (of_concat vch b).1
    have hpow : 0 < 256 ^ vch.length := Nat.pow_pos (by decide)
    rw [isMinimal, List.getLast?_concat, SignMagnitude.Minimal, hmag, List.length_append,
      List.length_singleton]
    dsimp only
    by_cases hzero : b &&& 0x7f = 0
    · rw [if_pos hzero, (and_0x7f b).1 hzero, Nat.zero_mul, Nat.add_zero]
      cases vch using List.reverseRecOn with
      | nil => exact iff_of_false Bool.false_ne_true (by decide)
      | append_singleton vch c =>
        have hlow := decode_lt vch
        have hget : (vch ++ [c] ++ [b]).getD ((vch ++ [c]).length + 1 - 2) 0 = c := by
          have hplace : (vch ++ [c]).length + 1 - 2 = vch.length := by
            rw [List.length_append, List.length_singleton]
            omega
          rw [hplace, List.append_assoc, List.getD_eq_getElem?_getD,
            List.getElem?_append_right (Nat.le_refl _), Nat.sub_self]
          rfl
        rw [hget, decode_concat, List.length_append, List.length_singleton, least]
        have hlong : (vch.length + 1 + 1 ≤ 1) = False := eq_false (by omega)
        have hc := and_0x80 c
        simp only [hlong, decide_false, Bool.false_or, Bool.not_eq_true', beq_eq_false_iff_ne]
        rw [hc]
        have hc256 := c.toNat_lt
        constructor
        · intro hle
          have hmul : 128 * 256 ^ vch.length ≤ c.toNat * 256 ^ vch.length :=
            Nat.mul_le_mul_right _ hle
          omega
        · intro hle
          by_contra hlt
          have hmul : c.toNat * 256 ^ vch.length ≤ 127 * 256 ^ vch.length :=
            Nat.mul_le_mul_right _ (by omega)
          omega
    · have hpos : 0 < b.toNat % 128 := Nat.pos_of_ne_zero fun h => hzero ((and_0x7f b).2 h)
      have hmul : 1 * 256 ^ vch.length ≤ b.toNat % 128 * 256 ^ vch.length :=
        Nat.mul_le_mul_right _ hpos
      rw [if_neg hzero]
      refine iff_of_true rfl ?_
      cases hlen : vch.length with
      | zero =>
        rw [hlen] at hmul
        exact le_trans (by decide) (hmul.trans (Nat.le_add_left _ _))
      | succ k =>
        rw [hlen, Nat.pow_succ] at hmul
        rw [least, Nat.pow_succ]
        omega

end Minimal

section Encoding

open SignMagnitude (value signBit least)

/-- The loop of `serialize` writes the digits of the absolute value, without zeros at the end. -/
theorem magnitude_spec {turns absvalue : ℕ} (h : absvalue < 256 ^ turns) :
    decode (magnitude turns absvalue) = absvalue ∧
      ∀ b ∈ (magnitude turns absvalue).getLast?, b.toNat ≠ 0 := by
  induction turns generalizing absvalue with
  | zero =>
    have hzero : absvalue = 0 := by simpa using h
    subst hzero
    exact ⟨rfl, fun b hb => nomatch hb⟩
  | succ turns ih =>
    rw [magnitude]
    split
    · rename_i hzero
      subst hzero
      exact ⟨rfl, fun b hb => nomatch hb⟩
    · rename_i hne
      rw [Nat.pow_succ] at h
      have hturns : absvalue / 256 < 256 ^ turns := by omega
      obtain ⟨hdecode, hlast⟩ := ih hturns
      have hb : (UInt8.ofNat absvalue).toNat = absvalue % 256 := rfl
      refine ⟨?_, fun b hmem => ?_⟩
      · rw [decode, hdecode, hb]
        omega
      · cases hrest : magnitude turns (absvalue / 256) with
        | nil =>
          rw [hrest, List.getLast?_singleton, Option.mem_some_iff] at hmem
          rw [hrest, decode] at hdecode
          rw [← hmem, hb]
          omega
        | cons c rest =>
          rw [hrest, List.getLast?_cons_cons, ← hrest] at hmem
          exact hlast b hmem

set_option maxRecDepth 2000 in
theorem or_0x80 (b : UInt8) : b.toNat < 128 → (b ||| 0x80).toNat = b.toNat + 128 := by
  have h : ∀ x : Fin 256, x.val < 128 → (UInt8.ofFin x ||| 0x80).toNat = x.val + 128 := by
    decide
  exact h b.toFin

/-- A number is written so that it is read back, in as few bytes as possible. -/
theorem value_serialize {n : ℤ} (h : n.natAbs < 2 ^ 63) :
    value (serialize n) = n ∧ SignMagnitude.Minimal (serialize n) := by
  have hturns : n.natAbs < 256 ^ 8 := h.trans (by decide)
  obtain ⟨hdecode, hlast⟩ := magnitude_spec hturns
  rw [serialize]
  generalize magnitude 8 n.natAbs = result at hdecode hlast
  cases result using List.reverseRecOn with
  | nil =>
    have hzero : n = 0 := Int.natAbs_eq_zero.1 hdecode.symm
    subst hzero
    exact ⟨rfl, Nat.le_refl 0⟩
  | append_singleton init back =>
    have hback := back.toNat_lt
    have hpos : back.toNat ≠ 0 := hlast back (by rw [List.getLast?_concat]; rfl)
    have hlow := decode_lt init
    have hpow : 0 < 256 ^ init.length := Nat.pow_pos (by decide)
    rw [decode_concat] at hdecode
    have hlen : (init ++ [back]).length = init.length + 1 := by
      rw [List.length_append, List.length_singleton]
    rw [List.getLast?_concat]
    dsimp only
    by_cases htop : back &&& 0x80 ≠ 0
    · -- the top bit is taken, so the sign has a byte of its own
      have h128 : 128 * 256 ^ init.length ≤ back.toNat * 256 ^ init.length :=
        Nat.mul_le_mul_right _ ((and_0x80 back).1 htop)
      have h255 : back.toNat * 256 ^ init.length ≤ 255 * 256 ^ init.length :=
        Nat.mul_le_mul_right _ (by omega)
      have hbit : ∀ s : UInt8, signBit (init ++ [back] ++ [s]).length =
          128 * 256 ^ (init.length + 1) := by
        intro s
        rw [signBit, List.length_append, List.length_singleton, Nat.add_sub_cancel, hlen]
      have hleast : ∀ s : UInt8, least (init ++ [back] ++ [s]).length ≤ n.natAbs := by
        intro s
        rw [List.length_append, List.length_singleton, hlen, least]
        omega
      have hlt : ∀ s : UInt8, n.natAbs < signBit (init ++ [back] ++ [s]).length := by
        intro s
        rw [hbit, Nat.pow_succ]
        omega
      rw [if_pos htop]
      by_cases hneg : n < 0
      · have hsign : decode (init ++ [back] ++ [0x80]) =
            n.natAbs + signBit (init ++ [back] ++ [0x80]).length := by
          rw [decode_concat, decode_concat, hdecode, hbit, hlen]
          rfl
        obtain ⟨hmag, hvalue⟩ := SignMagnitude.of_decode_eq_add (hlt 0x80) hsign
        rw [if_pos hneg, SignMagnitude.Minimal, hmag, hvalue]
        exact ⟨by omega, hleast 0x80⟩
      · have hsign : decode (init ++ [back] ++ [0]) = n.natAbs := by
          rw [decode_concat, decode_concat, hdecode]
          exact (congrArg (n.natAbs + ·) (Nat.zero_mul _)).trans (Nat.add_zero _)
        obtain ⟨hmag, hvalue⟩ := SignMagnitude.of_decode_eq (hlt 0) hsign
        rw [if_neg hneg, SignMagnitude.Minimal, hmag, hvalue]
        exact ⟨by omega, hleast 0⟩
    · have h127 := (not_congr (and_0x80 back)).1 htop
      have hmul : back.toNat * 256 ^ init.length ≤ 127 * 256 ^ init.length :=
        Nat.mul_le_mul_right _ (by omega)
      have hone : 1 * 256 ^ init.length ≤ back.toNat * 256 ^ init.length :=
        Nat.mul_le_mul_right _ (Nat.pos_of_ne_zero hpos)
      have hbit : ∀ b : UInt8, signBit (init ++ [b]).length = 128 * 256 ^ init.length := by
        intro b
        rw [signBit, List.length_append, List.length_singleton, Nat.add_sub_cancel]
      have hleast : ∀ b : UInt8, least (init ++ [b]).length ≤ n.natAbs := by
        intro b
        rw [List.length_append, List.length_singleton]
        cases hinit : init.length with
        | zero =>
          rw [hinit] at hone hdecode
          exact le_trans (by decide) (hone.trans (by omega))
        | succ k =>
          rw [hinit, Nat.pow_succ] at hone hdecode
          rw [least]
          omega
      rw [if_neg htop]
      by_cases hneg : n < 0
      · have hsign : decode (init ++ [back ||| 0x80]) =
            n.natAbs + signBit (init ++ [back ||| 0x80]).length := by
          rw [decode_concat, or_0x80 back (by omega), hbit, Nat.add_mul, ← Nat.add_assoc, hdecode]
        obtain ⟨hmag, hvalue⟩ := SignMagnitude.of_decode_eq_add
          (by rw [hbit]; omega) hsign
        rw [if_pos hneg, List.dropLast_concat, SignMagnitude.Minimal, hmag, hvalue]
        exact ⟨by omega, hleast _⟩
      · have hsign : decode (init ++ [back]) = n.natAbs := by rw [decode_concat, hdecode]
        obtain ⟨hmag, hvalue⟩ := SignMagnitude.of_decode_eq (by rw [hbit]; omega) hsign
        rw [if_neg hneg, SignMagnitude.Minimal, hmag, hvalue]
        exact ⟨by omega, hleast back⟩

theorem setVch_serialize {n : ℤ} (h : n.natAbs < 2 ^ 63) : setVch (serialize n) = n := by
  rw [setVch_eq_value]
  exact (value_serialize h).1

theorem isMinimal_serialize {n : ℤ} (h : n.natAbs < 2 ^ 63) : isMinimal (serialize n) = true :=
  (isMinimal_iff _).2 (value_serialize h).2

/-- A ninth byte would count for more than the numbers have. -/
theorem length_serialize_of_lt {n : ℤ} (h : n.natAbs < 2 ^ 63) : (serialize n).length ≤ 8 := by
  obtain ⟨hvalue, hminimal⟩ := value_serialize h
  have hle : least (serialize n).length ≤ n.natAbs := by
    rw [SignMagnitude.Minimal, ← SignMagnitude.natAbs_value, hvalue] at hminimal
    exact hminimal
  have hnine : least 9 = 2 ^ 63 := by decide
  have hlt : least (serialize n).length < least 9 := by omega
  have hlen := SignMagnitude.least_strictMono.lt_iff_lt.1 hlt
  omega

theorem eq_serialize {vch : Bytes} {n : ℤ} (h : n.natAbs < 2 ^ 63) (hminimal : isMinimal vch = true)
    (hvalue : setVch vch = n) : vch = serialize n := by
  obtain ⟨hserialize, hleast⟩ := value_serialize h
  refine ((isMinimal_iff vch).1 hminimal).eq_of_value_eq hleast ?_
  rw [← setVch_eq_value, hvalue, hserialize]

end Encoding

theorem ofVch_true_eq_ok {vch : Bytes} {n : ℤ} :
    ofVch true vch = .ok n ↔ vch.length ≤ 4 ∧ isMinimal vch = true ∧ setVch vch = n := by
  unfold ofVch
  split_ifs with hlong hminimal
  · exact iff_of_false nofun fun h => absurd h.1 (by omega)
  · simp_all
  · simp_all

/-- The numbers of 64 bits other than the least have one encoding that passes the test of the
constructor; beyond eight bytes the shifts of `set_vch` are undefined. -/
theorem one_minimal_encoding :
    (∀ n : ℤ, -2 ^ 63 < n → n < 2 ^ 63 →
      (serialize n).length ≤ 8 ∧ (setVch64 (serialize n)).toInt = n ∧
        isMinimal (serialize n) = true ∧
        ((serialize n).length ≤ 4 →
          ∀ fRequireMinimal, ofVch fRequireMinimal (serialize n) = .ok n) ∧
        ∀ vch : Bytes, vch.length ≤ 8 → isMinimal vch = true → (setVch64 vch).toInt = n →
          vch = serialize n) ∧
      (∀ vch n, ofVch true vch = .ok n → serialize n = vch) ∧
      ∀ vch : Bytes, vch.length ≤ 4 →
        -2 ^ 31 + 1 ≤ (setVch64 vch).toInt ∧ (setVch64 vch).toInt ≤ 2 ^ 31 - 1 ∧
          ofVch false vch = .ok (setVch64 vch).toInt := by
  refine ⟨fun n hmin hmax => ?_, fun vch n h => ?_, fun vch hlen => ?_⟩
  · have habs : n.natAbs < 2 ^ 63 := by omega
    have hlen := length_serialize_of_lt habs
    have hvalue := setVch_serialize habs
    have hminimal := isMinimal_serialize habs
    refine ⟨hlen, ?_, hminimal, fun hshort fRequireMinimal => ?_, fun vch hvch hmin' heq => ?_⟩
    · rw [toInt_setVch64 hlen, hvalue]
    · rw [ofVch, if_neg (by omega), hminimal, if_neg (by simp), hvalue]
    · rw [toInt_setVch64 hvch] at heq
      exact eq_serialize habs hmin' heq
  · obtain ⟨hshort, hminimal, hvalue⟩ := ofVch_true_eq_ok.1 h
    have hrange := setVch_inRange hshort
    have habs : n.natAbs < 2 ^ 63 := by
      obtain ⟨hlow, hhigh⟩ := hvalue ▸ hrange
      omega
    exact (eq_serialize habs hminimal hvalue).symm
  · obtain ⟨hlow, hhigh⟩ := setVch_inRange hlen
    rw [toInt_setVch64 (Nat.le_trans hlen (by decide))]
    refine ⟨by omega, by omega, ?_⟩
    rw [ofVch, if_neg (by omega), if_neg (by simp)]

end Scrypta.Interpreter.CScriptNum
