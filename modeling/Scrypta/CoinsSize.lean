import Scrypta.CoinsFormat

/-! The sizes that are predicted for the stored forms of coins and undo records, against the bytes
that are written. -/

namespace Scrypta.Undo

open Compressor

/-- `CalcMaskSize` with its loop variable of 32 bits; `none` where it needs more turns. -/
def calcMaskLoop (c : CCoins) : ℕ → ℕ → ℕ × ℕ → Option (ℕ × ℕ)
  | 0, _, _ => none
  | turns + 1, b, n =>
    if (2 + b * 8) % 2 ^ 32 < c.vout.length then
      calcMaskLoop c turns ((b + 1) % 2 ^ 32) (if fZero c b then n else (b + 1, n.2 + 1))
    else some n

/-- The header code as `GetSerializeSize` computes it: the mask bytes are counted by eight, where
the code that is written counts them by sixteen. -/
def sizeCode (c : CCoins) (nMaskCode : ℕ) : ℕ :=
  (8 * (nMaskCode - if c.isAvailable 0 || c.isAvailable 1 then 0 else 1) +
    (if c.fCoinBase then 1 else 0) + (if c.fCoinStake then 2 else 0) +
    (if c.isAvailable 0 then 4 else 0) + if c.isAvailable 1 then 8 else 0) % 2 ^ 32

/-- `GetSizeOfVarInt` for a signed number. -/
def sizeOfInt (n : ℤ) : Option ℕ := if n < 0 then some 1 else VarInt.sizeOf 32 n.toNat

section Sizes

variable (fmt : Codec)

/-- An output is written to a stream that counts the bytes. -/
def sizeOfTxOut (txout : CTxOut) : ℕ := (writeTxOut fmt txout).length

/-- `CCoins::GetSerializeSize`, whose loop over the mask gets so many turns. -/
def coinsSize (turns : ℕ) (c : CCoins) : Option ℕ := do
  let (nMaskSize, nMaskCode) ← calcMaskLoop c turns 0 (0, 0)
  if c.isAvailable 0 || c.isAvailable 1 || nMaskCode != 0 then
    let nVersion ← sizeOfInt c.nVersion
    let nCode ← VarInt.sizeOf 32 (sizeCode c nMaskCode)
    let nHeight ← sizeOfInt c.nHeight
    some ((nVersion + nCode + nMaskSize +
      ((c.vout.filter fun txout => !txout.isNull).map (sizeOfTxOut fmt)).sum + nHeight) % 2 ^ 32)
  else none

/-- `CTxInUndo::GetSerializeSize` -/
def txInUndoSize (undo : CTxInUndo) : Option ℕ := do
  let code ← VarInt.sizeOf 32 (nCode undo)
  let nVersion ← if 0 < undo.nHeight then sizeOfInt undo.nVersion else some 0
  some ((code + nVersion + sizeOfTxOut fmt undo.txout) % 2 ^ 32)

/-- The size is returned, and it is the number of bytes that `Serialize` writes. -/
def SizePredicted (c : CCoins) : Prop :=
  ∃ turns nSize bs, coinsSize fmt turns c = some nSize ∧ writeCoins fmt c = some bs ∧
    nSize = bs.length

end Sizes

/-! The loop over the mask. -/

theorem calcMaskLoop_of_long {c : CCoins} (h : 2 ^ 32 - 6 < c.vout.length) (turns b : ℕ)
    (n : ℕ × ℕ) : calcMaskLoop c turns b n = none := by
  induction turns generalizing b n with
  | zero => rfl
  | succ turns ih =>
    -- the variable is two more than a multiple of eight, also after it has wrapped
    have hlt : (2 + b * 8) % 2 ^ 32 < c.vout.length := by omega
    rw [calcMaskLoop, if_pos hlt]
    exact ih _ _

theorem calcMaskLoop_eq {c : CCoins} (h : c.vout.length ≤ 2 ^ 32 - 6) {turns b k : ℕ}
    (hk : b + k = (c.vout.length - 2 + 7) / 8) :
    calcMaskLoop c turns b
        ((List.range b).foldl (fun n b => if fZero c b then n else (b + 1, n.2 + 1)) (0, 0)) =
      if k < turns then some (calcMaskSize c) else none := by
  induction turns generalizing b k with
  | zero => rfl
  | succ turns ih =>
    rw [calcMaskLoop]
    cases k with
    | zero =>
      have hend : ¬(2 + b * 8) % 2 ^ 32 < c.vout.length := by omega
      rw [if_neg hend, if_pos (Nat.succ_pos turns), calcMaskSize, ← hk]
      rfl
    | succ k =>
      have hlt : (2 + b * 8) % 2 ^ 32 < c.vout.length := by omega
      have hnext := ih (b := b + 1) (k := k) (by omega)
      rw [List.range_succ, List.foldl_append, List.foldl_cons, List.foldl_nil] at hnext
      rw [if_pos hlt, Nat.mod_eq_of_lt (by omega), hnext]
      simp only [Nat.add_lt_add_iff_right]

theorem calcMaskLoop_iff (c : CCoins) (turns : ℕ) (n : ℕ × ℕ) :
    calcMaskLoop c turns 0 (0, 0) = some n ↔ c.vout.length ≤ 2 ^ 32 - 6 ∧
      (c.vout.length - 2 + 7) / 8 < turns ∧ n = calcMaskSize c := by
  by_cases hlen : c.vout.length ≤ 2 ^ 32 - 6
  · have hloop : calcMaskLoop c turns 0 (0, 0) = _ := calcMaskLoop_eq hlen (Nat.zero_add _)
    rw [hloop]
    split
    · rename_i hturns
      rw [Option.some.injEq]
      exact ⟨fun heq => ⟨hlen, hturns, heq.symm⟩, fun hall => hall.2.2.symm⟩
    · rename_i hturns
      exact ⟨fun heq => (nomatch heq), fun hall => absurd hall.2.1 hturns⟩
  · rw [calcMaskLoop_of_long (by omega)]
    exact ⟨fun heq => (nomatch heq), fun hall => absurd hall.1 hlen⟩

/-! The two header codes. -/

/-- The second output is left. -/
def secondLeft (c : CCoins) : ℕ := if c.isAvailable 1 then 1 else 0

/-- The counts of mask bytes, by eight and by sixteen, need as many bytes; `e` is 1 where the
second output is left. -/
def CodesAgree (k e : ℕ) : Prop :=
  ¬(8 ≤ k ∧ k + e < 16) ∧ ¬(1032 ≤ k ∧ k + e < 2064) ∧ ¬(132104 ≤ k ∧ k + e < 264208) ∧
    ¬(16909320 ≤ k ∧ k + e < 33818640) ∧ ¬(2 ^ 28 ≤ k ∧ k < 2 ^ 28 + 16909320) ∧ k + e < 2 ^ 29

instance (k e : ℕ) : Decidable (CodesAgree k e) := by
  unfold CodesAgree
  infer_instance

theorem exists_flags (c : CCoins) : ∃ f < 8,
    coinsCode c = (16 * codedMask c + (f + 8 * secondLeft c)) % 2 ^ 32 ∧
      sizeCode c (calcMaskSize c).2 = (8 * codedMask c + (f + 8 * secondLeft c)) % 2 ^ 32 := by
  refine ⟨(if c.fCoinBase then 1 else 0) + (if c.fCoinStake then 2 else 0) +
    (if c.isAvailable 0 then 4 else 0), ?_, ?_, ?_⟩
  · split_ifs <;> decide
  · have hcode : coinsCode c = (16 * codedMask c + (if c.fCoinBase then 1 else 0) +
      (if c.fCoinStake then 2 else 0) + (if c.isAvailable 0 then 4 else 0) +
      if c.isAvailable 1 then 8 else 0) % 2 ^ 32 := rfl
    rw [hcode, secondLeft]
    split_ifs <;> omega
  · have hcode : sizeCode c (calcMaskSize c).2 = (8 * codedMask c +
      (if c.fCoinBase then 1 else 0) + (if c.fCoinStake then 2 else 0) +
      (if c.isAvailable 0 then 4 else 0) + if c.isAvailable 1 then 8 else 0) % 2 ^ 32 := rfl
    rw [hcode, secondLeft]
    split_ifs <;> omega

theorem length_codes_eq_iff {k f e : ℕ} (hk : k < 2 ^ 29) (hf : f < 8) (he : e ≤ 1) :
    (VarInt.write 32 ((8 * k + (f + 8 * e)) % 2 ^ 32)).length =
      (VarInt.write 32 ((16 * k + (f + 8 * e)) % 2 ^ 32)).length ↔ CodesAgree k e := by
  have hgroups : VarInt.groups 32 = 5 := rfl
  rw [VarInt.length_write_eq_iff, hgroups]
  unfold CodesAgree
  constructor
  · intro h
    have h1 := h 1 (by decide)
    have h2 := h 2 (by decide)
    have h3 := h 3 (by decide)
    have h4 := h 4 (by decide)
    simp only [VarInt.limit] at h1 h2 h3 h4
    omega
  · rintro ⟨h1, h2, h3, h4, h5, h6⟩ j hj
    have hcases : j = 0 ∨ j = 1 ∨ j = 2 ∨ j = 3 ∨ j = 4 := by omega
    rcases hcases with rfl | rfl | rfl | rfl | rfl
    · simp only [VarInt.limit, Nat.not_lt_zero]
    all_goals
      simp only [VarInt.limit]
      omega

theorem codedMask_lt_of_short {c : CCoins} (h : c.vout.length ≤ 2 ^ 32 - 6) :
    codedMask c < 2 ^ 29 := by
  have hle := maskCode_le c
  have hcoded : codedMask c ≤ (calcMaskSize c).2 := Nat.sub_le _ _
  omega

/-- The header code is predicted to take as many bytes as it does exactly then. -/
theorem length_headers_eq_iff {c : CCoins} (h : c.vout.length ≤ 2 ^ 32 - 6) :
    (VarInt.write 32 (sizeCode c (calcMaskSize c).2)).length =
      (VarInt.write 32 (coinsCode c)).length ↔ CodesAgree (codedMask c) (secondLeft c) := by
  obtain ⟨f, hf, hcoins, hsize⟩ := exists_flags c
  have hsecond : secondLeft c ≤ 1 := by
    unfold secondLeft
    split_ifs <;> decide
  rw [hcoins, hsize]
  exact length_codes_eq_iff (codedMask_lt_of_short h) hf hsecond

/-! The sums. -/

theorem sizeOfInt_eq {n : ℤ} (h : n < 2 ^ 31) : sizeOfInt n = some (writeInt n).length := by
  unfold sizeOfInt writeInt
  split
  · rfl
  · exact VarInt.sizeOf_eq (by decide) (by omega)

section Sums

variable {fmt : Codec} {c : CCoins}

/-- All that the stored form has besides its header code. -/
def otherBytes (fmt : Codec) (c : CCoins) : ℕ :=
  (writeInt c.nVersion).length + (calcMaskSize c).1 +
    ((c.vout.filter fun txout => !txout.isNull).map (sizeOfTxOut fmt)).sum +
    (writeInt c.nHeight).length

theorem length_storedForm (fmt : Codec) {c : CCoins} (hleft : c.isPruned = false) :
    ∃ bs, writeCoins fmt c = some bs ∧
      bs.length = otherBytes fmt c + (VarInt.write 32 (coinsCode c)).length := by
  refine ⟨_, writeCoins_of_left fmt hleft, ?_⟩
  have hmask : (maskBytes c).length = (calcMaskSize c).1 := by
    rw [maskBytes, List.length_map, List.length_range]
  simp only [List.length_append, List.length_flatMap, hmask, otherBytes]
  change _ + _ + _ + ((c.vout.filter fun txout => !txout.isNull).map (sizeOfTxOut fmt)).sum + _ = _
  omega

theorem coinsSize_iff (hleft : c.isPruned = false) (hversion : c.nVersion < 2 ^ 31)
    (hheight : c.nHeight < 2 ^ 31) (turns nSize : ℕ) :
    coinsSize fmt turns c = some nSize ↔ c.vout.length ≤ 2 ^ 32 - 6 ∧
      (c.vout.length - 2 + 7) / 8 < turns ∧
      nSize = (otherBytes fmt c +
        (VarInt.write 32 (sizeCode c (calcMaskSize c).2)).length) % 2 ^ 32 := by
  have hcode : sizeCode c (calcMaskSize c).2 < 2 ^ 32 := Nat.mod_lt _ (by decide)
  have hsum : ∀ a b d e f : ℕ, a + b + d + e + f = a + d + e + f + b := by
    intros
    omega
  rw [coinsSize]
  cases hloop : calcMaskLoop c turns 0 (0, 0) with
  | none =>
    have hnone : ¬(c.vout.length ≤ 2 ^ 32 - 6 ∧ (c.vout.length - 2 + 7) / 8 < turns) := by
      intro hall
      rw [(calcMaskLoop_iff c turns _).2 ⟨hall.1, hall.2, rfl⟩] at hloop
      cases hloop
    exact ⟨fun heq => (nomatch heq), fun hall => absurd ⟨hall.1, hall.2.1⟩ hnone⟩
  | some n =>
    obtain ⟨hlen, hturns, rfl⟩ := (calcMaskLoop_iff c turns n).1 hloop
    simp only [Option.bind_eq_bind, Option.bind_some, maskCode_assert hleft, if_true,
      sizeOfInt_eq hversion, sizeOfInt_eq hheight, VarInt.sizeOf_eq (by decide) hcode,
      Option.some.injEq]
    rw [hsum]
    exact ⟨fun heq => ⟨hlen, hturns, heq.symm⟩, fun hall => hall.2.2.symm⟩

/-- The sum in 32 bits is right when it is small and both header codes take as many bytes. -/
theorem sizePredicted_iff (hleft : c.isPruned = false) (hversion : c.nVersion < 2 ^ 31)
    (hheight : c.nHeight < 2 ^ 31) : SizePredicted fmt c ↔ c.vout.length ≤ 2 ^ 32 - 6 ∧
      (∀ bs, writeCoins fmt c = some bs → bs.length < 2 ^ 32) ∧
      CodesAgree (codedMask c) (secondLeft c) := by
  obtain ⟨bs, hbs, hlength⟩ := length_storedForm fmt hleft
  have hgroups : VarInt.groups 32 = 5 := rfl
  have hcoins := VarInt.length_write_le 32 (coinsCode c)
  have hsize := VarInt.length_write_le 32 (sizeCode c (calcMaskSize c).2)
  constructor
  · rintro ⟨turns, nSize, bs', hpredicted, hwritten, heq⟩
    obtain ⟨hlen, -, hn⟩ := (coinsSize_iff hleft hversion hheight turns nSize).1 hpredicted
    rw [hbs, Option.some.injEq] at hwritten
    subst hwritten
    refine ⟨hlen, fun bs' hbs' => ?_, (length_headers_eq_iff hlen).1 (by omega)⟩
    rw [hbs, Option.some.injEq] at hbs'
    subst hbs'
    omega
  · rintro ⟨hlen, hshort, hagree⟩
    have hheaders := (length_headers_eq_iff hlen).2 hagree
    have hlt := hshort bs hbs
    refine ⟨_, _, bs, (coinsSize_iff hleft hversion hheight _ _).2
      ⟨hlen, Nat.lt_succ_self _, rfl⟩, hbs, ?_⟩
    rw [hheaders, ← hlength]
    exact Nat.mod_eq_of_lt hlt

theorem txInUndoSize_eq {undo : CTxInUndo} (hversion : undo.nVersion < 2 ^ 31) :
    txInUndoSize fmt undo = some ((writeTxInUndo fmt undo).length % 2 ^ 32) := by
  have hcode : nCode undo < 2 ^ 32 := Nat.mod_lt _ (by decide)
  rw [txInUndoSize, writeTxInUndo]
  simp only [Option.bind_eq_bind, VarInt.sizeOf_eq (by decide) hcode, Option.bind_some,
    sizeOfInt_eq hversion, sizeOfTxOut, List.length_append]
  split <;> rfl

end Sums

/-! Coins of 66 outputs that are all left, so that eight mask bytes are in use. -/

def manyLeft : CCoins where
  vout := List.replicate 66 ⟨0, [], -10⟩

set_option maxRecDepth 2000 in
/-- One byte is predicted for the header code, and two are written. -/
theorem one_byte_short :
    manyLeft.isPruned = false ∧ coinsSize keylessCodec 9 manyLeft = some 143 ∧
      (writeCoins keylessCodec manyLeft).map List.length = some 144 ∧
      ¬SizePredicted keylessCodec manyLeft := by
  refine ⟨by decide, by decide, by decide, fun h => ?_⟩
  have hagree := ((sizePredicted_iff (by decide) (by decide) (by decide)).1 h).2.2
  exact absurd hagree (by decide)

/-- The predicted size of coins is right exactly where the loops over the outputs end, the sum
fits 32 bits and both header codes take as many bytes; that of an undo record where the sum fits.
Those of numbers are always right. -/
theorem predicted_sizes (fmt : Codec) :
    (∀ c : CCoins, c.isPruned = false → 0 ≤ c.nVersion ∧ c.nVersion < 2 ^ 31 →
      0 ≤ c.nHeight ∧ c.nHeight < 2 ^ 31 →
      (SizePredicted fmt c ↔ c.vout.length ≤ 2 ^ 32 - 6 ∧
        (∀ bs, writeCoins fmt c = some bs → bs.length < 2 ^ 32) ∧
        CodesAgree (codedMask c) (secondLeft c))) ∧
    (∀ undo : CTxInUndo, 0 ≤ undo.nVersion ∧ undo.nVersion < 2 ^ 31 →
      (txInUndoSize fmt undo = some (writeTxInUndo fmt undo).length ↔
        (writeTxInUndo fmt undo).length < 2 ^ 32)) ∧
    (∀ w n : ℕ, 0 < w → n < 2 ^ w → VarInt.sizeOf w n = some (VarInt.write w n).length) ∧
    ∀ n : ℕ, CompactSize.sizeOf n = (CompactSize.write n).length := by
  refine ⟨fun c hleft hversion hheight => sizePredicted_iff hleft hversion.2 hheight.2,
    fun undo hversion => ?_, fun w n => VarInt.sizeOf_eq,
    fun n => (CompactSize.length_write n).symm⟩
  rw [txInUndoSize_eq hversion.2, Option.some.injEq]
  constructor
  · intro heq
    rw [← heq]
    exact Nat.mod_lt _ (by decide)
  · exact Nat.mod_eq_of_lt

theorem predicted_sizes_mostlySpent :
    SizePredicted keylessCodec mostlySpent ↔ mostlySpent.vout.length ≤ 2 ^ 32 - 6 ∧
      (∀ bs, writeCoins keylessCodec mostlySpent = some bs → bs.length < 2 ^ 32) ∧
      CodesAgree (codedMask mostlySpent) (secondLeft mostlySpent) :=
  (predicted_sizes keylessCodec).1 mostlySpent (by decide) (by decide) (by decide)

end Scrypta.Undo
