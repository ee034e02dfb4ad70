import Scrypta.Coins
import Scrypta.Compressor
import Scrypta.Toolkit.CompactSize

/-! Undo data as it is written to disk and read back. -/

namespace Scrypta.Undo

open Compressor

def maxSize : ℕ := 0x02000000

/-- `Hash` is the double SHA-256 of the checksum. -/
structure Codec extends Keys where
  Hash : Bytes → Uint256

section Format

variable (fmt : Codec)

def writeTxOut (txout : CTxOut) : Bytes :=
  VarInt.write 64 (compressAmount (txout.nValue % 2 ^ 64).toNat) ++
    writeScript fmt.toKeys txout.scriptPubKey

def readTxOut (bs : Bytes) : Option (CTxOut × Bytes) :=
  match VarInt.read 64 bs with
  | none => none
  | some (nVal, bs) =>
    match readScript fmt.toKeys bs with
    | none => none
    | some (script, bs) =>
      some (⟨(decompressAmount nVal : ℤ).bmod (2 ^ 64), script, -10⟩, bs)

/-- A signed number is written as if it ended at once when it is negative. -/
def writeInt (n : ℤ) : Bytes :=
  if n < 0 then [UInt8.ofNat (n % 128).toNat] else VarInt.write 32 n.toNat

def readInt (bs : Bytes) : Option (ℤ × Bytes) :=
  (VarInt.read 32 bs).map fun n => (toInt32 n.1, n.2)

def nCode (undo : CTxInUndo) : ℕ :=
  (undo.nHeight * 4 + (if undo.fCoinBase then 2 else 0) + if undo.fCoinStake then 1 else 0) %
    2 ^ 32

def writeTxInUndo (undo : CTxInUndo) : Bytes :=
  VarInt.write 32 (nCode undo) ++
    (if 0 < undo.nHeight then writeInt undo.nVersion else []) ++ writeTxOut fmt undo.txout

/-- The version of a record without a height is the default one. -/
def readTxInUndo (bs : Bytes) : Option (CTxInUndo × Bytes) :=
  match VarInt.read 32 bs with
  | none => none
  | some (nCode, bs) =>
    match if 0 < nCode / 4 then readInt bs else some (0, bs) with
    | none => none
    | some (nVersion, bs) =>
      match readTxOut fmt bs with
      | none => none
      | some (txout, bs) =>
        some (⟨txout, nCode / 2 % 2 == 1, nCode % 2 == 1, nCode / 4, nVersion⟩, bs)

def writeTxUndo (undo : CTxUndo) : Bytes :=
  CompactSize.writeVector (writeTxInUndo fmt) undo.vprevout

def readTxUndo (bs : Bytes) : Option (CTxUndo × Bytes) :=
  (CompactSize.readVector maxSize (readTxInUndo fmt) bs).map fun v => (⟨v.1⟩, v.2)

def writeBlockUndo (undo : CBlockUndo) : Bytes :=
  CompactSize.writeVector (writeTxUndo fmt) undo.vtxundo

def readBlockUndo (bs : Bytes) : Option (CBlockUndo × Bytes) :=
  (CompactSize.readVector maxSize (readTxUndo fmt) bs).map fun v => (⟨v.1⟩, v.2)

def checksum (hashBlock : Uint256) (undo : CBlockUndo) : Uint256 :=
  fmt.Hash (LittleEndian.encode 32 hashBlock.toNat ++ writeBlockUndo fmt undo)

/-- `CBlockUndo::WriteToDisk`: what is in the undo file from the position of the data on. -/
def writeToDisk (hashBlock : Uint256) (undo : CBlockUndo) : Bytes :=
  writeBlockUndo fmt undo ++ LittleEndian.encode 32 (checksum fmt hashBlock undo).toNat

/-- `CBlockUndo::ReadFromDisk` -/
def readFromDisk (hashBlock : Uint256) (bs : Bytes) : Option CBlockUndo :=
  match readBlockUndo fmt bs with
  | none => none
  | some (undo, bs) =>
    if bs.length < 32 then none
    else if LittleEndian.decode (bs.take 32) = (checksum fmt hashBlock undo).toNat then some undo
    else none

end Format

/-- An output that the stored form represents. -/
structure Storable (txout : CTxOut) : Prop where
  nonneg : 0 ≤ txout.nValue
  lt : txout.nValue < 2 ^ 60
  script : txout.scriptPubKey.length + nSpecialScripts < 2 ^ 32
  nRounds : txout.nRounds = -10

/-- A record that the stored form represents up to the sign of the version. -/
structure Writable (undo : CTxInUndo) : Prop where
  txout : Storable undo.txout
  nHeight : undo.nHeight < 2 ^ 30
  nVersion : -2 ^ 31 ≤ undo.nVersion ∧ undo.nVersion < 2 ^ 31
  plain : undo.nHeight = 0 → undo.nVersion = 0

/-- What is read back for a version. -/
def storedVersion (n : ℤ) : ℤ := if n < 0 then n % 128 else n

def stored (undo : CTxInUndo) : CTxInUndo := { undo with nVersion := storedVersion undo.nVersion }

theorem storedVersion_eq_self {n : ℤ} (h : 0 ≤ n) : storedVersion n = n := if_neg (by omega)

theorem storedVersion_nonneg (n : ℤ) : 0 ≤ storedVersion n := by
  unfold storedVersion
  split
  · exact Int.emod_nonneg n (by decide)
  · omega

theorem writeInt_storedVersion (n : ℤ) : writeInt (storedVersion n) = writeInt n := by
  by_cases hn : n < 0
  · have hnonneg := Int.emod_nonneg n (show (128 : ℤ) ≠ 0 by decide)
    have hlt := Int.emod_lt_of_pos n (show (0 : ℤ) < 128 by decide)
    rw [storedVersion, if_pos hn, writeInt, writeInt, if_pos hn, if_neg (by omega)]
    have hgroups : VarInt.groups 32 = 4 + 1 := rfl
    rw [VarInt.write, hgroups, VarInt.buffer, if_pos (by omega), Nat.add_zero,
      Nat.mod_eq_of_lt (by omega)]
    rfl
  · rw [storedVersion, if_neg hn]

theorem readInt_writeInt {n : ℤ} (hlo : -2 ^ 31 ≤ n) (hhi : n < 2 ^ 31) (bs : Bytes) :
    readInt (writeInt n ++ bs) = some (storedVersion n, bs) := by
  have hstored : 0 ≤ storedVersion n ∧ storedVersion n < 2 ^ 31 := by
    unfold storedVersion
    split <;> omega
  rw [← writeInt_storedVersion, writeInt, if_neg (by omega), readInt,
    VarInt.read_write (by decide) (by omega), Option.map_some,
    Int.toNat_of_nonneg hstored.1, toInt32_eq_self (by omega) (by omega)]

section RoundTrip

variable {fmt : Codec} {undo : CTxInUndo}

theorem readTxOut_writeTxOut (hkeys : fmt.toKeys.Lawful) {txout : CTxOut} (h : Storable txout)
    (bs : Bytes) : readTxOut fmt (writeTxOut fmt txout ++ bs) = some (txout, bs) := by
  have hself : txout.nValue % 2 ^ 64 = txout.nValue :=
    Int.emod_eq_of_lt h.nonneg (Int.lt_trans h.lt (by decide))
  have hcast : (txout.nValue.toNat : ℤ) = txout.nValue := Int.toNat_of_nonneg h.nonneg
  have hamount : txout.nValue.toNat < 2 ^ 60 := (Int.toNat_lt h.nonneg).mpr h.lt
  have hcompr : compressAmount txout.nValue.toNat < 2 ^ 64 := by
    unfold compressAmount
    split
    · decide
    · exact Nat.mod_lt _ (by decide)
  have hvalue : (txout.nValue.toNat : ℤ).bmod (2 ^ 64) = txout.nValue := by
    rw [Int.bmod_eq_of_le (by omega) (by omega), hcast]
  rw [readTxOut, writeTxOut, hself, List.append_assoc, VarInt.read_write (by decide) hcompr]
  simp only [readScript_writeScript hkeys h.script, decompressAmount_compressAmount hamount,
    hvalue, ← h.nRounds]

theorem nCode_parts (h : undo.nHeight < 2 ^ 30) :
    nCode undo / 4 = undo.nHeight ∧ (nCode undo / 2 % 2 == 1) = undo.fCoinBase ∧
      (nCode undo % 2 == 1) = undo.fCoinStake := by
  unfold nCode
  cases undo.fCoinBase <;> cases undo.fCoinStake <;>
    simp only [if_true, if_false, Bool.false_eq_true, beq_iff_eq, beq_eq_false_iff_ne] <;> omega

theorem readTxInUndo_writeTxInUndo (hkeys : fmt.toKeys.Lawful) (h : Writable undo) (bs : Bytes) :
    readTxInUndo fmt (writeTxInUndo fmt undo ++ bs) = some (stored undo, bs) := by
  obtain ⟨hheight, hcoinbase, hcoinstake⟩ := nCode_parts h.nHeight
  have hcode : nCode undo < 2 ^ 32 := Nat.mod_lt _ (by decide)
  rw [readTxInUndo, writeTxInUndo, List.append_assoc, List.append_assoc,
    VarInt.read_write (by decide) hcode]
  simp only [hheight, hcoinbase, hcoinstake]
  have hversion : (if 0 < undo.nHeight then
      readInt ((if 0 < undo.nHeight then writeInt undo.nVersion else []) ++
        (writeTxOut fmt undo.txout ++ bs))
      else some (0, (if 0 < undo.nHeight then writeInt undo.nVersion else []) ++
        (writeTxOut fmt undo.txout ++ bs))) =
      some (storedVersion undo.nVersion, writeTxOut fmt undo.txout ++ bs) := by
    by_cases hpos : 0 < undo.nHeight
    · rw [if_pos hpos, if_pos hpos, readInt_writeInt h.nVersion.1 h.nVersion.2]
    · rw [if_neg hpos, if_neg hpos, h.plain (by omega)]
      rfl
  rw [hversion]
  simp only [readTxOut_writeTxOut hkeys h.txout]
  rfl

theorem writeTxInUndo_stored (undo : CTxInUndo) :
    writeTxInUndo fmt (stored undo) = writeTxInUndo fmt undo := by
  simp only [writeTxInUndo, stored, writeInt_storedVersion]
  rfl

/-- The undo data of a transaction as it is read back. -/
def storedTx (undo : CTxUndo) : CTxUndo := ⟨undo.vprevout.map stored⟩

def storedBlock (undo : CBlockUndo) : CBlockUndo := ⟨undo.vtxundo.map storedTx⟩

/-- Undo data that fits into the stored form. -/
structure WritableBlock (undo : CBlockUndo) : Prop where
  length : undo.vtxundo.length ≤ maxSize
  lengths : ∀ txundo ∈ undo.vtxundo, txundo.vprevout.length ≤ maxSize
  records : ∀ txundo ∈ undo.vtxundo, ∀ r ∈ txundo.vprevout, Writable r

theorem writeVector_map {α : Type*} {writeOne : α → Bytes} {f : α → α} {as : List α}
    (h : ∀ a ∈ as, writeOne (f a) = writeOne a) :
    CompactSize.writeVector writeOne (as.map f) = CompactSize.writeVector writeOne as := by
  rw [CompactSize.writeVector, CompactSize.writeVector, List.length_map, List.flatMap_map]
  congr 1
  exact List.flatMap_congr h

theorem writeBlockUndo_storedBlock (undo : CBlockUndo) :
    writeBlockUndo fmt (storedBlock undo) = writeBlockUndo fmt undo :=
  writeVector_map fun _ _ => writeVector_map fun _ _ => writeTxInUndo_stored _

theorem readBlockUndo_writeBlockUndo (hkeys : fmt.toKeys.Lawful) {undo : CBlockUndo}
    (h : WritableBlock undo) (bs : Bytes) :
    readBlockUndo fmt (writeBlockUndo fmt undo ++ bs) = some (storedBlock undo, bs) := by
  have hlt : maxSize < 2 ^ 64 := by decide
  have hone : ∀ txundo ∈ undo.vtxundo, ∀ bs,
      readTxUndo fmt (writeTxUndo fmt txundo ++ bs) = some (storedTx txundo, bs) := by
    intro txundo htxundo bs
    have hlen := h.lengths txundo htxundo
    rw [readTxUndo, writeTxUndo, CompactSize.readVector_write hlen (by omega) fun r hr =>
      readTxInUndo_writeTxInUndo hkeys (h.records txundo htxundo r hr)]
    rfl
  have hlen := h.length
  rw [readBlockUndo, writeBlockUndo, CompactSize.readVector_write hlen (by omega) hone]
  rfl

/-- Undo data is read back with the versions that the stored form keeps. -/
theorem readFromDisk_writeToDisk (hkeys : fmt.toKeys.Lawful) (hashBlock : Uint256)
    {undo : CBlockUndo} (h : WritableBlock undo) :
    readFromDisk fmt hashBlock (writeToDisk fmt hashBlock undo) = some (storedBlock undo) := by
  have hsum : checksum fmt hashBlock (storedBlock undo) = checksum fmt hashBlock undo := by
    rw [checksum, writeBlockUndo_storedBlock, checksum]
  have hlen : (LittleEndian.encode 32 (checksum fmt hashBlock undo).toNat).length = 32 :=
    LittleEndian.length_encode _ _
  have hlt : (checksum fmt hashBlock undo).toNat < 256 ^ 32 := (checksum fmt hashBlock undo).isLt
  rw [readFromDisk, writeToDisk, readBlockUndo_writeBlockUndo hkeys h]
  simp only [hlen, Nat.lt_irrefl, if_false, List.take_of_length_le (Nat.le_of_eq hlen), hsum,
    LittleEndian.decode_encode_of_lt hlt, if_true]

/-- Every height that is read has 30 bits. -/
theorem nHeight_lt_of_read {bs bs' : Bytes} (h : readTxInUndo fmt bs = some (undo, bs')) :
    undo.nHeight < 2 ^ 30 := by
  unfold readTxInUndo at h
  split at h
  · cases h
  next nCode _ hcode =>
  split at h
  · cases h
  split at h
  · cases h
  obtain ⟨rfl, -⟩ := Prod.mk.inj (Option.some.inj h)
  have hlt : nCode < 2 ^ 32 := VarInt.readFrom_lt hcode
  simp only
  omega

theorem nHeight_lt_of_readFromDisk {hashBlock : Uint256} {bs : Bytes} {undo : CBlockUndo}
    (h : readFromDisk fmt hashBlock bs = some undo) :
    ∀ txundo ∈ undo.vtxundo, ∀ r ∈ txundo.vprevout, r.nHeight < 2 ^ 30 := by
  unfold readFromDisk at h
  split at h
  · cases h
  next undo' bs' hread =>
  split at h
  · cases h
  split at h
  · obtain rfl := Option.some.inj h
    obtain ⟨⟨_, _⟩, hvector, heq⟩ := Option.map_eq_some_iff.mp hread
    cases heq
    intro txundo htxundo r hr
    obtain ⟨_, _, htx⟩ := CompactSize.exists_of_mem_readVector hvector txundo htxundo
    obtain ⟨⟨_, _⟩, hvector', heq'⟩ := Option.map_eq_some_iff.mp htx
    cases heq'
    obtain ⟨_, _, hone⟩ := CompactSize.exists_of_mem_readVector hvector' r hr
    exact nHeight_lt_of_read hone
  · cases h

end RoundTrip

end Scrypta.Undo
