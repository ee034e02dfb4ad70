import Scrypta.BlockValue
import Scrypta.Toolkit.PackedBits
import Scrypta.Undo

/-! The stored form of coins: a header code with the flags and the number of used mask bytes,
the mask of the outputs from the third on, and the outputs that are left. -/

namespace Scrypta.Undo

open Compressor

/-! Writing. -/

/-- Whether the eight outputs of a mask byte are all spent. -/
def fZero (c : CCoins) (b : ℕ) : Bool :=
  (List.range 8).all fun i => !c.isAvailable (2 + b * 8 + i)

/-- `CalcMaskSize`: the mask bytes up to the last one in use, and how many are in use. -/
def calcMaskSize (c : CCoins) : ℕ × ℕ :=
  (List.range ((c.vout.length - 2 + 7) / 8)).foldl
    (fun n b => if fZero c b then n else (b + 1, n.2 + 1)) (0, 0)

def chAvail (c : CCoins) (b : ℕ) : UInt8 :=
  UInt8.ofNat ((List.range 8).foldl
    (fun ch i => if c.isAvailable (2 + b * 8 + i) then ch ||| 1 <<< i else ch) 0)

def coinsCode (c : CCoins) : ℕ :=
  (16 * ((calcMaskSize c).2 - if c.isAvailable 0 || c.isAvailable 1 then 0 else 1) +
    (if c.fCoinBase then 1 else 0) + (if c.fCoinStake then 2 else 0) +
    (if c.isAvailable 0 then 4 else 0) + if c.isAvailable 1 then 8 else 0) % 2 ^ 32

section Format

variable (fmt : Codec)

/-- Nothing is written of pruned coins, where the program stops at its assertion. -/
def writeCoins (c : CCoins) : Option Bytes :=
  if c.isAvailable 0 || c.isAvailable 1 || (calcMaskSize c).2 != 0 then
    some (writeInt c.nVersion ++ VarInt.write 32 (coinsCode c) ++
      (List.range (calcMaskSize c).1).map (chAvail c) ++
      (c.vout.filter fun txout => !txout.isNull).flatMap (writeTxOut fmt) ++ writeInt c.nHeight)
  else none

/-! Reading. -/

def maskBits (ch : UInt8) : List Bool := (List.range 8).map ch.toNat.testBit

/-- The mask up to the byte that completes the number of used ones. -/
def readMask : Bytes → ℕ → Option (List Bool × Bytes)
  | bs, 0 => some ([], bs)
  | [], _ + 1 => none
  | ch :: bs, nMaskCode + 1 =>
    (readMask bs (if ch = 0 then nMaskCode + 1 else nMaskCode)).map fun r =>
      (maskBits ch ++ r.1, r.2)

def readVout : List Bool → Bytes → Option (List CTxOut × Bytes)
  | [], bs => some ([], bs)
  | false :: vAvail, bs => (readVout vAvail bs).map fun r => (CTxOut.null :: r.1, r.2)
  | true :: vAvail, bs =>
    match readTxOut fmt bs with
    | none => none
    | some (txout, bs) => (readVout vAvail bs).map fun r => (txout :: r.1, r.2)

def readCoins (bs : Bytes) : Option (CCoins × Bytes) :=
  match readInt bs with
  | none => none
  | some (nVersion, bs) =>
    match VarInt.read 32 bs with
    | none => none
    | some (nCode, bs) =>
      match readMask bs (nCode / 16 + if nCode.testBit 2 || nCode.testBit 3 then 0 else 1) with
      | none => none
      | some (mask, bs) =>
        match readVout fmt (nCode.testBit 2 :: nCode.testBit 3 :: mask) bs with
        | none => none
        | some (vout, bs) =>
          match readInt bs with
          | none => none
          | some (nHeight, bs) =>
            some (CCoins.cleanup ⟨nCode.testBit 0, nCode.testBit 1, vout, nHeight, nVersion⟩, bs)

end Format

/-! The mask. -/

theorem toNat_chAvail_lt (c : CCoins) (b k : ℕ) :
    (List.range k).foldl
      (fun ch i => if c.isAvailable (2 + b * 8 + i) then ch ||| 1 <<< i else ch) 0 < 2 ^ k := by
  apply Nat.lt_pow_two_of_testBit
  intro i hi
  rw [PackedBits.testBit_foldl_or fun i => c.isAvailable (2 + b * 8 + i)]
  simp only [Nat.not_lt.mpr hi, decide_false, Bool.false_and]

/-- The bits of a mask byte are the availabilities of its outputs. -/
theorem maskBits_chAvail (c : CCoins) (b : ℕ) :
    maskBits (chAvail c b) = (List.range 8).map fun i => c.isAvailable (2 + (8 * b + i)) := by
  have hlt := toNat_chAvail_lt c b 8
  unfold maskBits
  apply List.map_congr_left
  intro i hi
  rw [chAvail, UInt8.toNat_ofNat_of_lt' hlt,
    PackedBits.testBit_foldl_or fun i => c.isAvailable (2 + b * 8 + i)]
  simp only [List.mem_range.mp hi, decide_true, Bool.true_and]
  congr 1
  omega

theorem chAvail_eq_zero_iff (c : CCoins) (b : ℕ) : chAvail c b = 0 ↔ fZero c b = true := by
  have hlt := toNat_chAvail_lt c b 8
  rw [← UInt8.toNat_inj, chAvail, UInt8.toNat_ofNat_of_lt' hlt]
  constructor
  · intro h
    unfold fZero
    rw [List.all_eq_true]
    intro i hi
    have hbit := PackedBits.testBit_foldl_or (fun i => c.isAvailable (2 + b * 8 + i)) 8 i
    rw [h] at hbit
    simp only [UInt8.toNat_zero, Nat.zero_testBit, List.mem_range.mp hi, decide_true,
      Bool.true_and] at hbit
    rw [← hbit]
    rfl
  · intro h
    unfold fZero at h
    rw [List.all_eq_true] at h
    apply Nat.eq_of_testBit_eq
    intro i
    rw [PackedBits.testBit_foldl_or fun i => c.isAvailable (2 + b * 8 + i)]
    by_cases hi : i < 8
    · have hspent := h i (List.mem_range.mpr hi)
      rw [Bool.not_eq_true'] at hspent
      simp only [hi, hspent, Bool.and_false, UInt8.toNat_zero, Nat.zero_testBit]
    · simp only [hi, decide_false, Bool.false_and, UInt8.toNat_zero, Nat.zero_testBit]

theorem flatMap_maskBits (c : CCoins) (m : ℕ) :
    ((List.range m).map (chAvail c)).flatMap maskBits =
      (List.range (8 * m)).map fun j => c.isAvailable (2 + j) := by
  induction m with
  | zero => rfl
  | succ m ih =>
    rw [List.range_succ, List.map_append, List.flatMap_append, ih, Nat.mul_succ, List.range_add,
      List.map_append, List.map_map]
    simp only [List.map_cons, List.map_nil, List.flatMap_cons, List.flatMap_nil, List.append_nil,
      maskBits_chAvail]
    rfl

theorem countP_pos_of_getLast {chs : List UInt8} (hne : chs ≠ [])
    (h : chs.getLast? ≠ some 0) : 0 < chs.countP (· != 0) := by
  apply List.countP_pos_iff.mpr
  refine ⟨chs.getLast hne, List.getLast_mem hne, ?_⟩
  rw [bne_iff_ne]
  intro h0
  exact h (by rw [List.getLast?_eq_getLast_of_ne_nil hne, h0])

/-- A mask whose last byte is in use is read up to its end. -/
theorem readMask_append {chs : List UInt8} (h : chs.getLast? ≠ some 0) (bs : Bytes) :
    readMask (chs ++ bs) (chs.countP (· != 0)) = some (chs.flatMap maskBits, bs) := by
  induction chs with
  | nil => cases bs <;> rfl
  | cons ch chs ih =>
    cases chs with
    | nil =>
      have hch : ch ≠ 0 := fun h0 => h (by rw [h0]; rfl)
      have hcount : [ch].countP (· != 0) = 1 := by simp [hch]
      have hrest : readMask bs 0 = some ([], bs) := by cases bs <;> rfl
      rw [hcount, List.singleton_append, readMask, if_neg hch, hrest]
      simp
    | cons ch' chs =>
      have hrest := ih h
      by_cases hch : ch = 0
      · have hpos := countP_pos_of_getLast (List.cons_ne_nil ch' chs) h
        obtain ⟨k, hk⟩ := Nat.exists_eq_succ_of_ne_zero hpos.ne'
        rw [List.countP_cons, hk, hch]
        rw [hk] at hrest
        simp only [bne_self_eq_false, Bool.false_eq_true, if_false, Nat.add_zero, List.cons_append,
          Nat.succ_eq_add_one, readMask, if_true] at hrest ⊢
        rw [hrest]
        rfl
      · have hone : (if (ch != 0) = true then 1 else 0) = 1 := if_pos (bne_iff_ne.mpr hch)
        rw [List.countP_cons, hone, List.cons_append, readMask, if_neg hch, hrest]
        rfl

/-! How many mask bytes there are. -/

/-- What `CalcMaskSize` has found among the first `m` mask bytes: the ones behind the last used
one are zero, and that one is not. -/
theorem maskSize_spec (c : CCoins) (m : ℕ) :
    let n := (List.range m).foldl (fun n b => if fZero c b then n else (b + 1, n.2 + 1)) (0, 0)
    n.1 ≤ m ∧ (∀ b, n.1 ≤ b → b < m → fZero c b = true) ∧
      ((List.range n.1).map (chAvail c)).getLast? ≠ some 0 ∧
      n.2 = ((List.range n.1).map (chAvail c)).countP (· != 0) := by
  induction m with
  | zero => simp
  | succ m ih =>
    simp only [List.range_succ, List.foldl_append, List.foldl_cons, List.foldl_nil]
    generalize (List.range m).foldl (fun n b => if fZero c b then n else (b + 1, n.2 + 1))
      ((0, 0) : ℕ × ℕ) = n at ih
    obtain ⟨hle, hzero, hlast, hcount⟩ := ih
    by_cases hm : fZero c m = true
    · rw [if_pos hm]
      refine ⟨by omega, fun b hb hbm => ?_, hlast, hcount⟩
      obtain hlt | rfl := Nat.lt_succ_iff_lt_or_eq.mp hbm
      · exact hzero b hb hlt
      · exact hm
    · rw [if_neg hm]
      have hne : chAvail c m ≠ 0 := fun h0 => hm ((chAvail_eq_zero_iff c m).mp h0)
      -- The bytes that were skipped before are all zero.
      have hskipped : ((List.range m).map (chAvail c)).countP (· != 0) = n.2 := by
        rw [hcount]
        obtain ⟨k, rfl⟩ := Nat.exists_eq_add_of_le hle
        rw [List.range_add, List.map_append, List.countP_append, Nat.add_eq_left]
        apply List.countP_eq_zero.mpr
        intro ch hch
        rw [List.map_map] at hch
        obtain ⟨j, hj, rfl⟩ := List.mem_map.mp hch
        have hspent := hzero (n.1 + j) (by omega) (by
          have := List.mem_range.mp hj
          omega)
        rw [Function.comp_apply, (chAvail_eq_zero_iff c _).mpr hspent]
        decide
      refine ⟨le_rfl, fun b hb hbm => absurd hbm (by omega), ?_, ?_⟩
      · rw [List.range_succ, List.map_append, List.map_cons, List.map_nil, List.getLast?_concat]
        exact fun h => hne (Option.some.inj h)
      · rw [List.range_succ, List.map_append, List.countP_append, hskipped]
        simp [hne]

def maskBytes (c : CCoins) : Bytes := (List.range (calcMaskSize c).1).map (chAvail c)

theorem calcMaskSize_spec (c : CCoins) :
    (calcMaskSize c).1 ≤ (c.vout.length - 2 + 7) / 8 ∧
      (∀ b, (calcMaskSize c).1 ≤ b → b < (c.vout.length - 2 + 7) / 8 → fZero c b = true) ∧
      (maskBytes c).getLast? ≠ some 0 ∧
      (calcMaskSize c).2 = (maskBytes c).countP (· != 0) :=
  maskSize_spec c _

theorem isAvailable_lt {c : CCoins} {n : ℕ} (h : c.isAvailable n = true) : n < c.vout.length := by
  unfold CCoins.isAvailable at h
  by_contra hlen
  rw [List.getElem?_eq_none (Nat.not_lt.mp hlen)] at h
  exact absurd h Bool.false_ne_true

/-- No output behind the written mask is left. -/
theorem lt_maskSize {c : CCoins} {n : ℕ} (h : c.isAvailable n = true) :
    n < 2 + 8 * (calcMaskSize c).1 := by
  obtain ⟨-, hzero, -, -⟩ := calcMaskSize_spec c
  have hlen := isAvailable_lt h
  by_contra hn
  have hspent := hzero ((n - 2) / 8) (by omega) (by omega)
  unfold fZero at hspent
  rw [List.all_eq_true] at hspent
  have hbit := hspent ((n - 2) % 8) (List.mem_range.mpr (Nat.mod_lt _ (by decide)))
  rw [show 2 + (n - 2) / 8 * 8 + (n - 2) % 8 = n by omega, h] at hbit
  exact absurd hbit Bool.false_ne_true

/-! The outputs. -/

/-- An output that the stored form represents: a spent one, or one that can be written. -/
def Kept (txout : CTxOut) : Prop := txout = CTxOut.null ∨ Storable txout

theorem Storable.isNull {txout : CTxOut} (h : Storable txout) : txout.isNull = false := by
  have hnonneg := h.nonneg
  unfold CTxOut.isNull
  rw [beq_eq_false_iff_ne]
  intro hvalue
  rw [hvalue] at hnonneg
  exact absurd hnonneg (by decide)

theorem readVout_append {fmt : Codec} (hkeys : fmt.toKeys.Lawful) {vout : List CTxOut}
    (h : ∀ txout ∈ vout, Kept txout) (bs : Bytes) :
    readVout fmt (vout.map fun txout => !txout.isNull)
        ((vout.filter fun txout => !txout.isNull).flatMap (writeTxOut fmt) ++ bs) =
      some (vout, bs) := by
  induction vout with
  | nil => rfl
  | cons txout vout ih =>
    have hrest := ih fun o ho => h o (List.mem_cons_of_mem _ ho)
    obtain rfl | hstored := h txout List.mem_cons_self
    · have hnull : (!CTxOut.null.isNull) = false := rfl
      rw [List.map_cons, hnull, List.filter_cons_of_neg (by rw [hnull]; exact Bool.false_ne_true),
        readVout, hrest]
      rfl
    · have hleft : (!txout.isNull) = true := by rw [hstored.isNull]; rfl
      rw [List.map_cons, hleft, List.filter_cons_of_pos (p := fun o : CTxOut => !o.isNull) hleft,
        List.flatMap_cons, List.append_assoc, readVout, readTxOut_writeTxOut hkeys hstored]
      simp only [hrest]
      rfl

/-- The outputs as they are read, up to the end of the mask. -/
def padded (c : CCoins) : List CTxOut :=
  c.vout ++ List.replicate (2 + 8 * (calcMaskSize c).1 - c.vout.length) CTxOut.null

/-- Coins as they are kept: some output is left, and none behind the last one that is. -/
structure Trimmed (c : CCoins) : Prop where
  left : c.isPruned = false
  trimmed : ∀ txout, c.vout.getLast? = some txout → txout.isNull = false

theorem length_le_of_trimmed {c : CCoins} (h : Trimmed c) :
    c.vout.length ≤ 2 + 8 * (calcMaskSize c).1 := by
  by_cases hnil : c.vout = []
  · rw [hnil]
    exact Nat.zero_le _
  · have hpos := List.length_pos_iff.mpr hnil
    have hget : c.vout[c.vout.length - 1]? = some (c.vout.getLast hnil) := by
      rw [← List.getLast?_eq_getElem?, List.getLast?_eq_getLast_of_ne_nil hnil]
    have havail : c.isAvailable (c.vout.length - 1) = true := by
      rw [CCoins.isAvailable, hget]
      simp only
      rw [h.trimmed _ (List.getLast?_eq_getLast_of_ne_nil hnil)]
      rfl
    have := lt_maskSize havail
    omega

theorem map_padded {c : CCoins} (h : Trimmed c) :
    (padded c).map (fun txout => !txout.isNull) =
      (List.range (2 + 8 * (calcMaskSize c).1)).map c.isAvailable := by
  have hlen := length_le_of_trimmed h
  apply List.ext_getElem
  · simp only [padded, List.length_map, List.length_append, List.length_replicate,
      List.length_range]
    omega
  · intro n hn hn'
    rw [List.getElem_map, List.getElem_map, List.getElem_range, CCoins.isAvailable]
    by_cases hin : n < c.vout.length
    · rw [List.getElem?_eq_getElem hin]
      simp only [padded, List.getElem_append_left hin]
    · rw [List.getElem?_eq_none (Nat.not_lt.mp hin)]
      simp only [padded, List.getElem_append_right (Nat.not_lt.mp hin), List.getElem_replicate]
      rfl

theorem cleanup_padded {c : CCoins} (h : Trimmed c) :
    (padded c).rdropWhile CTxOut.isNull = c.vout := by
  have hnull : ∀ k, (c.vout ++ List.replicate k CTxOut.null).rdropWhile CTxOut.isNull = c.vout := by
    intro k
    induction k with
    | zero =>
      rw [List.replicate_zero, List.append_nil]
      apply List.rdropWhile_eq_self_iff.mpr
      intro hne
      rw [h.trimmed _ (List.getLast?_eq_getLast_of_ne_nil hne)]
      exact Bool.false_ne_true
    | succ k ih =>
      rw [List.replicate_succ', ← List.append_assoc, List.rdropWhile_concat_pos _ _ _ rfl, ih]
  exact hnull _

/-! The header code. -/

/-- The mask bytes that the header code counts. -/
def codedMask (c : CCoins) : ℕ :=
  (calcMaskSize c).2 - if c.isAvailable 0 || c.isAvailable 1 then 0 else 1

theorem maskCode_le (c : CCoins) : (calcMaskSize c).2 ≤ (c.vout.length - 2 + 7) / 8 := by
  obtain ⟨hle, -, -, hcount⟩ := calcMaskSize_spec c
  have hbytes : (maskBytes c).length = (calcMaskSize c).1 := by
    rw [maskBytes, List.length_map, List.length_range]
  calc (calcMaskSize c).2 = (maskBytes c).countP (· != 0) := hcount
    _ ≤ (maskBytes c).length := List.countP_le_length
    _ ≤ (c.vout.length - 2 + 7) / 8 := by rw [hbytes]; exact hle

theorem coinsCode_parts {c : CCoins} (h : codedMask c < 2 ^ 28) :
    coinsCode c / 16 = codedMask c ∧ (coinsCode c).testBit 0 = c.fCoinBase ∧
      (coinsCode c).testBit 1 = c.fCoinStake ∧ (coinsCode c).testBit 2 = c.isAvailable 0 ∧
      (coinsCode c).testBit 3 = c.isAvailable 1 := by
  have hcode : coinsCode c = (16 * codedMask c + (if c.fCoinBase then 1 else 0) +
    (if c.fCoinStake then 2 else 0) + (if c.isAvailable 0 then 4 else 0) +
    if c.isAvailable 1 then 8 else 0) % 2 ^ 32 := rfl
  rw [hcode]
  generalize codedMask c = k at h
  simp only [Nat.testBit_eq_decide_div_mod_eq]
  cases c.fCoinBase <;> cases c.fCoinStake <;> cases c.isAvailable 0 <;>
    cases c.isAvailable 1 <;>
    simp only [if_true, if_false, Bool.false_eq_true, decide_eq_true_eq,
      decide_eq_false_iff_not] <;>
    omega

/-- Some output is left: one of the first two, or one that the mask counts. -/
theorem exists_available {c : CCoins} (h : c.isPruned = false) :
    ∃ n, c.isAvailable n = true := by
  unfold CCoins.isPruned at h
  obtain ⟨txout, hmem, hleft⟩ := List.all_eq_false.mp h
  obtain ⟨n, hn⟩ := List.mem_iff_getElem?.mp hmem
  refine ⟨n, ?_⟩
  rw [CCoins.isAvailable, hn]
  simp only [Bool.eq_false_iff.mpr hleft, Bool.not_false]

theorem maskCode_pos {c : CCoins} (h : c.isPruned = false) (h0 : c.isAvailable 0 = false)
    (h1 : c.isAvailable 1 = false) : 0 < (calcMaskSize c).2 := by
  obtain ⟨n, hn⟩ := exists_available h
  have hmask := lt_maskSize hn
  have hn2 : 2 ≤ n := by
    rcases n with _ | _ | n
    · rw [h0] at hn
      cases hn
    · rw [h1] at hn
      cases hn
    · omega
  obtain ⟨-, -, hlast, hcount⟩ := calcMaskSize_spec c
  have hbytes : (maskBytes c).length = (calcMaskSize c).1 := by
    rw [maskBytes, List.length_map, List.length_range]
  rw [hcount]
  apply countP_pos_of_getLast _ hlast
  rw [← List.length_pos_iff, hbytes]
  omega

/-! Coins. -/

/-- Coins that the stored form represents. -/
structure Recordable (c : CCoins) : Prop extends Trimmed c where
  outputs : ∀ txout ∈ c.vout, Kept txout
  length : c.vout.length + 5 < 2 ^ 31
  nHeight : 0 ≤ c.nHeight ∧ c.nHeight < 2 ^ 31
  nVersion : 0 ≤ c.nVersion ∧ c.nVersion < 2 ^ 31

theorem readInt_writeInt_nonneg {n : ℤ} (h : 0 ≤ n ∧ n < 2 ^ 31) (bs : Bytes) :
    readInt (writeInt n ++ bs) = some (n, bs) := by
  rw [readInt_writeInt (by omega) h.2, storedVersion_eq_self h.1]

theorem codedMask_lt {c : CCoins} (h : Recordable c) : codedMask c < 2 ^ 28 := by
  have hle := maskCode_le c
  have hlen := h.length
  have hcoded : codedMask c ≤ (calcMaskSize c).2 := Nat.sub_le _ _
  omega

theorem maskCode_read {c : CCoins} (h : Recordable c) :
    coinsCode c / 16 + (if c.isAvailable 0 || c.isAvailable 1 then 0 else 1) =
      (calcMaskSize c).2 := by
  rw [(coinsCode_parts (codedMask_lt h)).1, codedMask]
  cases h0 : c.isAvailable 0 with
  | true => rfl
  | false =>
    cases h1 : c.isAvailable 1 with
    | true => rfl
    | false =>
      have hpos := maskCode_pos h.left h0 h1
      simp only [Bool.or_self, Bool.false_eq_true, if_false]
      omega

/-- The assertion holds for coins that are left. -/
theorem maskCode_assert {c : CCoins} (h : c.isPruned = false) :
    (c.isAvailable 0 || c.isAvailable 1 || (calcMaskSize c).2 != 0) = true := by
  cases h0 : c.isAvailable 0 with
  | true => rfl
  | false =>
    cases h1 : c.isAvailable 1 with
    | true => rfl
    | false =>
      have hpos := maskCode_pos h h0 h1
      rw [Bool.or_self, Bool.false_or, bne_iff_ne]
      omega

theorem writeCoins_of_left (fmt : Codec) {c : CCoins} (h : c.isPruned = false) :
    writeCoins fmt c = some (writeInt c.nVersion ++ VarInt.write 32 (coinsCode c) ++
      maskBytes c ++ (c.vout.filter fun txout => !txout.isNull).flatMap (writeTxOut fmt) ++
      writeInt c.nHeight) := by
  rw [writeCoins, if_pos (maskCode_assert h)]
  rfl

theorem filter_padded (c : CCoins) :
    (padded c).filter (fun txout => !txout.isNull) = c.vout.filter fun txout => !txout.isNull := by
  have hnone : ∀ k, (List.replicate k CTxOut.null).filter (fun txout => !txout.isNull) = [] := by
    intro k
    rw [List.filter_eq_nil_iff]
    intro txout hmem
    rw [List.eq_of_mem_replicate hmem]
    exact Bool.false_ne_true
  rw [padded, List.filter_append, hnone, List.append_nil]

theorem readCoins_writeCoins {fmt : Codec} (hkeys : fmt.toKeys.Lawful) {c : CCoins}
    (h : Recordable c) {bs : Bytes} (hbs : writeCoins fmt c = some bs) (rest : Bytes) :
    readCoins fmt (bs ++ rest) = some (c, rest) := by
  obtain ⟨-, hcoinbase, hcoinstake, hfirst, hsecond⟩ := coinsCode_parts (codedMask_lt h)
  have hcode : coinsCode c < 2 ^ 32 := Nat.mod_lt _ (by decide)
  obtain ⟨-, -, hlast, hcount⟩ := calcMaskSize_spec c
  have hkept : ∀ txout ∈ padded c, Kept txout := by
    intro txout hmem
    obtain hin | hpad := List.mem_append.mp hmem
    · exact h.outputs txout hin
    · exact Or.inl (List.eq_of_mem_replicate hpad)
  have havail : c.isAvailable 0 :: c.isAvailable 1 :: (maskBytes c).flatMap maskBits =
      (padded c).map fun txout => !txout.isNull := by
    rw [map_padded h.toTrimmed, maskBytes, flatMap_maskBits, List.range_add, List.map_append,
      List.map_map]
    rfl
  rw [writeCoins_of_left fmt h.left, Option.some.injEq] at hbs
  rw [← hbs, readCoins]
  simp only [List.append_assoc]
  rw [readInt_writeInt_nonneg h.nVersion]
  simp only
  rw [VarInt.read_write (by decide) hcode]
  simp only [hfirst, hsecond, hcoinbase, hcoinstake]
  rw [maskCode_read h, hcount, readMask_append hlast]
  simp only [havail, ← filter_padded c]
  rw [readVout_append hkeys hkept]
  simp only
  rw [readInt_writeInt_nonneg h.nHeight]
  simp only [CCoins.cleanup, cleanup_padded h.toTrimmed]

/-! Undo records, and the whole. -/

/-- The version of a record without a height is not written, and reads as 0. -/
theorem readTxInUndo_writeTxInUndo_nonneg {fmt : Codec} (hkeys : fmt.toKeys.Lawful)
    {undo : CTxInUndo} (htxout : Storable undo.txout) (hheight : undo.nHeight < 2 ^ 30)
    (hversion : 0 ≤ undo.nVersion ∧ undo.nVersion < 2 ^ 31) (bs : Bytes) :
    readTxInUndo fmt (writeTxInUndo fmt undo ++ bs) =
      some ({ undo with nVersion := if 0 < undo.nHeight then undo.nVersion else 0 }, bs) := by
  by_cases hpos : 0 < undo.nHeight
  · have hw : Writable undo :=
      ⟨htxout, hheight, ⟨by omega, hversion.2⟩, fun h0 => absurd h0 hpos.ne'⟩
    rw [readTxInUndo_writeTxInUndo hkeys hw, stored, storedVersion_eq_self hversion.1,
      if_pos hpos]
  · have hsame : writeTxInUndo fmt undo = writeTxInUndo fmt { undo with nVersion := 0 } := by
      simp only [writeTxInUndo, nCode, if_neg hpos]
    have hw : Writable { undo with nVersion := 0 } :=
      ⟨htxout, hheight, show -2 ^ 31 ≤ (0 : ℤ) ∧ (0 : ℤ) < 2 ^ 31 by decide, fun _ => rfl⟩
    rw [hsame, readTxInUndo_writeTxInUndo hkeys hw, stored, if_neg hpos]
    rfl

/-- An output between nothing and all the money, with a script whose length fits the number
before it. -/
theorem storable_of_money {txout : CTxOut} (hnonneg : 0 ≤ txout.nValue)
    (hmoney : txout.nValue ≤ Validation.mainMaxMoneyOut)
    (hscript : txout.scriptPubKey.length + nSpecialScripts < 2 ^ 32)
    (hrounds : txout.nRounds = -10) : Storable txout :=
  ⟨hnonneg, lt_of_le_of_lt hmoney (by decide), hscript, hrounds⟩

/-- Coins and undo records are read back from what is written of them, and nothing more is
consumed. Amounts are coded exactly, and a short form stands for its script alone. -/
theorem stored_form_lossless {fmt : Codec} (hkeys : fmt.toKeys.Lawful) :
    (∀ c, Recordable c → ∃ bs, writeCoins fmt c = some bs ∧
      ∀ rest, readCoins fmt (bs ++ rest) = some (c, rest)) ∧
    (∀ undo : CTxInUndo, Storable undo.txout → undo.nHeight < 2 ^ 30 →
      0 ≤ undo.nVersion ∧ undo.nVersion < 2 ^ 31 →
      ∀ rest, readTxInUndo fmt (writeTxInUndo fmt undo ++ rest) =
        some ({ undo with nVersion := if 0 < undo.nHeight then undo.nVersion else 0 }, rest)) ∧
    (∀ n : ℕ, n < 2 ^ 60 → decompressAmount (compressAmount n) = n ∧
      compressAmount n = amountCode n ∧
      decompressAmount (compressAmount n) = codedAmount (compressAmount n)) ∧
    ∀ script compr, compress fmt.toKeys script = some compr →
      ∃ nSize vch, compr = nSize :: vch ∧ nSize.toNat < nSpecialScripts ∧
        vch.length = getSpecialSize nSize.toNat ∧
        decompress fmt.toKeys nSize.toNat vch = script := by
  refine ⟨fun c h => ?_, fun undo htxout hheight hversion rest => ?_, fun n h => ?_,
    fun script compr h => ?_⟩
  · have hbs := writeCoins_of_left fmt h.left
    exact ⟨_, hbs, readCoins_writeCoins hkeys h hbs⟩
  · exact readTxInUndo_writeTxInUndo_nonneg hkeys htxout hheight hversion rest
  · exact ⟨decompressAmount_compressAmount h, compressAmount_exact h⟩
  · exact compress_some hkeys h

/-! A coinbase with two outputs left, the fifth and the last. -/

def keyHashOut (nValue : CAmount) (b : UInt8) : CTxOut :=
  ⟨nValue, [Script.opDup, Script.opHash160, 20] ++ List.replicate 20 b ++
    [Script.opEqualVerify, Script.opCheckSig], -10⟩

def keylessCodec : Codec := ⟨⟨fun _ => false, fun _ => none⟩, fun _ => 0⟩

theorem keylessCodec_lawful : keylessCodec.toKeys.Lawful := fun _ _ _ hvalid => nomatch hvalid

def mostlySpent : CCoins where
  fCoinBase := true
  vout := List.replicate 4 CTxOut.null ++ keyHashOut 234925952 0x61 ::
    (List.replicate 11 CTxOut.null ++ [keyHashOut 110397 0x8c])
  nHeight := 120891
  nVersion := 1

theorem mostlySpent_recordable : Recordable mostlySpent := by
  refine ⟨⟨by decide, fun txout h => ?_⟩, fun txout hmem => ?_, by decide, by decide, by decide⟩
  · obtain rfl := Option.some.inj h
    rfl
  · simp only [mostlySpent, List.mem_append, List.mem_cons, List.not_mem_nil, or_false] at hmem
    rcases hmem with hnull | rfl | hnull | rfl
    · exact Or.inl (List.eq_of_mem_replicate hnull)
    · exact Or.inr (storable_of_money (by decide) (by decide) (by decide) rfl)
    · exact Or.inl (List.eq_of_mem_replicate hnull)
    · exact Or.inr (storable_of_money (by decide) (by decide) (by decide) rfl)

theorem stored_form_lossless_mostlySpent :
    ∃ bs, writeCoins keylessCodec mostlySpent = some bs ∧
      ∀ rest, readCoins keylessCodec (bs ++ rest) = some (mostlySpent, rest) :=
  (stored_form_lossless keylessCodec_lawful).1 mostlySpent mostlySpent_recordable

/-! A script whose length and the number of special scripts add up to 2 ^ 32. -/

def coinsOf (script : CScript) : CCoins := ⟨false, false, [⟨0, script, -10⟩], 0, 0⟩

theorem writeCoins_coinsOf (script : CScript) :
    writeCoins keylessCodec (coinsOf script) =
      some ([0, 4, 0] ++ writeScript keylessCodec.toKeys script ++ [0]) := by
  have hmask : calcMaskSize (coinsOf script) = (0, 0) := by
    have hlen : (coinsOf script).vout.length = 1 := rfl
    rw [calcMaskSize, hlen]
    rfl
  have hfirst : (coinsOf script).isAvailable 0 = true := rfl
  have hsecond : (coinsOf script).isAvailable 1 = false := rfl
  have hcode : coinsCode (coinsOf script) = 4 := by
    simp only [coinsCode, hmask, hfirst, hsecond]
    rfl
  have hleft : ((coinsOf script).vout.filter fun txout => !txout.isNull) =
      [⟨0, script, -10⟩] := rfl
  have hversion : (coinsOf script).nVersion = 0 := rfl
  have hheight : (coinsOf script).nHeight = 0 := rfl
  have hzero : writeInt 0 = [0] := by decide
  have hfour : VarInt.write 32 4 = [4] := by decide
  have hamount : VarInt.write 64 (compressAmount ((0 : ℤ) % 2 ^ 64).toNat) = [0] := by decide
  simp only [writeCoins, hmask, hcode, hfirst, hleft, hversion, hheight, hzero, hfour, hamount,
    Bool.true_or, if_true, List.range_zero, List.map_nil, List.flatMap_cons, List.flatMap_nil,
    writeTxOut, List.cons_append, List.nil_append, List.append_nil]

theorem writeScript_zeros {n : ℕ} (hn : 67 < n) :
    writeScript keylessCodec.toKeys (List.replicate n 0) =
      VarInt.write 32 ((n + nSpecialScripts) % 2 ^ 32) ++ List.replicate n 0 := by
  have hcompr : compress keylessCodec.toKeys (List.replicate n 0) = none := by
    simp only [compress, toKeyID, toScriptID, toPubKey, List.length_replicate,
      show n ≠ 25 by omega, show n ≠ 23 by omega, show n ≠ 35 by omega, show n ≠ 67 by omega,
      false_and, if_false]
  simp only [writeScript, hcompr, List.length_replicate]

theorem readInt_zero (bs : Bytes) : readInt (0 :: bs) = some (0, bs) := by
  have hzero : toInt32 (0 : UInt8).toNat = 0 := by decide
  rw [readInt, VarInt.read_small (by decide) (by decide), Option.map_some, hzero]

theorem readTxOut_keyHash {vch : Bytes} (hlen : vch.length = 20) (bs : Bytes) :
    readTxOut keylessCodec (0 :: 0 :: (vch ++ bs)) =
      some (⟨0, decompress keylessCodec.toKeys 0 vch, -10⟩, bs) := by
  have hamount : VarInt.read 64 (0 :: 0 :: (vch ++ bs)) = some (0, 0 :: (vch ++ bs)) :=
    VarInt.read_small (by decide) (by decide) _
  have hsize : VarInt.read 32 (0 :: (vch ++ bs)) = some (0, vch ++ bs) :=
    VarInt.read_small (by decide) (by decide) _
  have hspecial : getSpecialSize 0 = vch.length := hlen.symm
  have hfits : ¬(vch ++ bs).length < vch.length := by
    rw [List.length_append]
    omega
  have hscript : readScript keylessCodec.toKeys (0 :: (vch ++ bs)) =
      some (decompress keylessCodec.toKeys 0 vch, bs) := by
    have hspecials : 0 < nSpecialScripts := by decide
    simp only [readScript, hsize, hspecials, if_true, hspecial, hfits, if_false, List.take_left,
      List.drop_left]
  simp only [readTxOut, hamount, hscript]
  rfl

theorem readCoins_keyHash {vch : Bytes} (hlen : vch.length = 20) (bs : Bytes) :
    readCoins keylessCodec (0 :: 4 :: 0 :: 0 :: (vch ++ 0 :: bs)) =
      some (coinsOf (decompress keylessCodec.toKeys 0 vch), bs) := by
  have hcode (bs : Bytes) : VarInt.read 32 (4 :: bs) = some (4, bs) :=
    VarInt.read_small (by decide) (by decide) _
  have hfirst : Nat.testBit 4 2 = true := by decide
  have hsecond : Nat.testBit 4 3 = false := by decide
  have hmask (bs : Bytes) : readMask bs (4 / 16 + 0) = some ([], bs) := by cases bs <;> rfl
  simp only [readCoins, readInt_zero, hcode, hfirst, hsecond, Bool.true_or, if_true, hmask,
    readVout, readTxOut_keyHash hlen, Option.map_some]
  rfl

theorem readCoins_writeCoins_zeros {k : ℕ} (hlong : 67 < k)
    (hwrap : (k + 21 + nSpecialScripts) % 2 ^ 32 = 0) :
    ∃ bs, writeCoins keylessCodec (coinsOf (List.replicate (k + 21) 0)) = some bs ∧
      readCoins keylessCodec bs = some (coinsOf (decompress keylessCodec.toKeys 0
        (List.replicate 20 0)), List.replicate k 0 ++ [0]) := by
  have hsplit : List.replicate (k + 21) (0 : UInt8) =
      List.replicate 20 0 ++ 0 :: List.replicate k 0 := by
    rw [Nat.add_comm, List.replicate_add]
    rfl
  have hzero : VarInt.write 32 0 = [0] := by decide
  rw [writeCoins_coinsOf, writeScript_zeros (by omega), hwrap, hsplit, hzero]
  refine ⟨_, rfl, ?_⟩
  rw [← readCoins_keyHash (List.length_replicate (n := 20))]
  simp only [List.cons_append, List.nil_append, List.append_assoc]

theorem coinsOf_trimmed (script : CScript) : Trimmed (coinsOf script) :=
  ⟨rfl, fun txout h => by
    obtain rfl := Option.some.inj h
    rfl⟩

/-- The script of a coin that is too long by far is read back as a payment to the key hash
zero, and most of its bytes are left. -/
theorem long_script_lost :
    Trimmed (coinsOf (List.replicate (2 ^ 32 - 6) 0)) ∧
    ∃ bs, writeCoins keylessCodec (coinsOf (List.replicate (2 ^ 32 - 6) 0)) = some bs ∧
      ∀ c rest, readCoins keylessCodec bs = some (c, rest) →
        c ≠ coinsOf (List.replicate (2 ^ 32 - 6) 0) ∧ rest ≠ [] := by
  refine ⟨coinsOf_trimmed _, ?_⟩
  have hlen : 2 ^ 32 - 6 = 2 ^ 32 - 27 + 21 := rfl
  rw [hlen]
  obtain ⟨bs, hbs, hread⟩ := readCoins_writeCoins_zeros (k := 2 ^ 32 - 27) (by decide) (by decide)
  refine ⟨bs, hbs, fun c rest h => ?_⟩
  rw [hread] at h
  obtain ⟨rfl, rfl⟩ := Prod.mk.inj (Option.some.inj h)
  refine ⟨fun heq => ?_, List.append_ne_nil_of_right_ne_nil _ (List.cons_ne_nil _ _)⟩
  have hhead := congrArg (fun c : CCoins => (c.vout.head?).map fun o => o.scriptPubKey.head?) heq
  rw [Nat.add_comm, List.replicate_add] at hhead
  exact absurd hhead (by decide)

end Scrypta.Undo
