import Scrypta.Script
import Scrypta.Toolkit.VarInt

/-! The stored form of an output. Trailing zeros of the amount are counted, and the usual scripts
are cut down to their hash or key. -/

namespace Scrypta.Compressor

/-- Divide by ten as long as that is exact, at most so many times. -/
def stripZeros : ℕ → ℕ → ℕ × ℕ
  | 0, n => (n, 0)
  | k + 1, n =>
    if n % 10 = 0 then ((stripZeros k (n / 10)).1, (stripZeros k (n / 10)).2 + 1) else (n, 0)

def compressAmount (n : ℕ) : ℕ :=
  if n = 0 then 0
  else
    let (n, e) := stripZeros 9 n
    (if e < 9 then 1 + (n / 10 * 9 + n % 10 - 1) * 10 + e else 1 + (n - 1) * 10 + 9) % 2 ^ 64

def decompressAmount (x : ℕ) : ℕ :=
  if x = 0 then 0
  else
    let x := x - 1
    let e := x % 10
    let x := x / 10
    let n := if e < 9 then x / 9 * 10 + (x % 9 + 1) else x + 1
    n * 10 ^ e % 2 ^ 64

theorem stripZeros_spec (k n : ℕ) :
    n = (stripZeros k n).1 * 10 ^ (stripZeros k n).2 ∧ (stripZeros k n).2 ≤ k ∧
      ((stripZeros k n).2 < k → (stripZeros k n).1 % 10 ≠ 0) := by
  induction k generalizing n with
  | zero => simp [stripZeros]
  | succ k ih =>
    rw [stripZeros]
    split
    · next h =>
      obtain ⟨heq, hle, hne⟩ := ih (n / 10)
      refine ⟨?_, by omega, fun hlt => hne (by omega)⟩
      rw [Nat.pow_succ, ← Nat.mul_assoc, ← heq]
      omega
    · next h => exact ⟨by simp, by omega, fun _ => h⟩

/-- The code of an amount, in unbounded numbers. -/
def amountCode (n : ℕ) : ℕ :=
  if n = 0 then 0
  else
    let (n, e) := stripZeros 9 n
    if e < 9 then 1 + (n / 10 * 9 + n % 10 - 1) * 10 + e else 1 + (n - 1) * 10 + 9

def codedAmount (x : ℕ) : ℕ :=
  if x = 0 then 0
  else
    let x := x - 1
    let e := x % 10
    let x := x / 10
    let n := if e < 9 then x / 9 * 10 + (x % 9 + 1) else x + 1
    n * 10 ^ e

theorem compressAmount_eq (n : ℕ) : compressAmount n = amountCode n % 2 ^ 64 := by
  unfold compressAmount amountCode
  split <;> rfl

theorem decompressAmount_eq (x : ℕ) : decompressAmount x = codedAmount x % 2 ^ 64 := by
  unfold decompressAmount codedAmount
  split <;> rfl

theorem codedAmount_amountCode (n : ℕ) : codedAmount (amountCode n) = n := by
  by_cases h0 : n = 0
  · subst h0
    rfl
  · obtain ⟨heq, hle, hne⟩ := stripZeros_spec 9 n
    generalize hs : stripZeros 9 n = s at heq hle hne
    obtain ⟨m, e⟩ := s
    simp only at heq hle hne
    have hm0 : m ≠ 0 := by
      rintro rfl
      omega
    simp only [amountCode, if_neg h0, hs]
    split
    · next he =>
      have hd := hne he
      have he' : (1 + (m / 10 * 9 + m % 10 - 1) * 10 + e - 1) % 10 = e := by omega
      have hx : (1 + (m / 10 * 9 + m % 10 - 1) * 10 + e - 1) / 10 = m / 10 * 9 + m % 10 - 1 := by
        omega
      have hmm : (m / 10 * 9 + m % 10 - 1) / 9 * 10 + ((m / 10 * 9 + m % 10 - 1) % 9 + 1) = m := by
        omega
      rw [codedAmount, if_neg (by omega)]
      simp only [he', hx, if_pos he]
      rw [hmm, ← heq]
    · next he =>
      obtain rfl : e = 9 := by omega
      have he' : (1 + (m - 1) * 10 + 9 - 1) % 10 = 9 := by omega
      have hx : (1 + (m - 1) * 10 + 9 - 1) / 10 + 1 = m := by omega
      rw [codedAmount, if_neg (by omega)]
      simp only [he', hx, if_neg (show ¬9 < 9 by omega)]
      exact heq.symm

theorem amountCode_lt {n : ℕ} (h : n < 2 ^ 60) : amountCode n < 2 ^ 64 := by
  obtain ⟨heq, hle, -⟩ := stripZeros_spec 9 n
  have hm : (stripZeros 9 n).1 ≤ n := by
    conv_rhs => rw [heq]
    exact Nat.le_mul_of_pos_right _ (Nat.pow_pos (by decide))
  unfold amountCode
  split
  · decide
  · generalize stripZeros 9 n = s at hle hm
    obtain ⟨m, e⟩ := s
    simp only at hle hm ⊢
    split <;> omega

/-- On an amount of 60 bits neither direction wraps. -/
theorem compressAmount_exact {n : ℕ} (h : n < 2 ^ 60) :
    compressAmount n = amountCode n ∧ decompressAmount (compressAmount n) = codedAmount
      (compressAmount n) := by
  have hcompr : compressAmount n = amountCode n := by
    rw [compressAmount_eq, Nat.mod_eq_of_lt (amountCode_lt h)]
  refine ⟨hcompr, ?_⟩
  rw [decompressAmount_eq, hcompr, codedAmount_amountCode, Nat.mod_eq_of_lt (by omega)]

theorem decompressAmount_compressAmount {n : ℕ} (h : n < 2 ^ 60) :
    decompressAmount (compressAmount n) = n := by
  obtain ⟨hcompr, hdecompr⟩ := compressAmount_exact h
  rw [hdecompr, hcompr, codedAmount_amountCode]

/-! Scripts. -/

/-- Public keys: whether an uncompressed key is on the curve, and the uncompressed form of a
compressed one. -/
structure Keys where
  isFullyValid : Bytes → Bool
  decompress : Bytes → Option Bytes

def toKeyID (script : CScript) : Option Bytes :=
  if script.length = 25 ∧ script.take 3 = [Script.opDup, Script.opHash160, 20] ∧
      script.drop 23 = [Script.opEqualVerify, Script.opCheckSig] then
    some ((script.drop 3).take 20)
  else none

def toScriptID (script : CScript) : Option Bytes :=
  if script.length = 23 ∧ script.take 2 = [Script.opHash160, 20] ∧
      script.drop 22 = [Script.opEqual] then
    some ((script.drop 2).take 20)
  else none

/-- The compressed key of a script with a compressed key, or the one that stands for a valid
uncompressed key. -/
def toPubKey (keys : Keys) (script : CScript) : Option Bytes :=
  if script.length = 35 ∧ script.take 1 = [33] ∧ script.drop 34 = [Script.opCheckSig] ∧
      (script[1]? = some 2 ∨ script[1]? = some 3) then
    some ((script.drop 1).take 33)
  else if script.length = 67 ∧ script.take 1 = [65] ∧ script.drop 66 = [Script.opCheckSig] ∧
      script[1]? = some 4 ∧ keys.isFullyValid ((script.drop 1).take 65) = true then
    some ((if (script.getD 65 0).toNat % 2 = 1 then 5 else 4) :: (script.drop 2).take 32)
  else none

def compress (keys : Keys) (script : CScript) : Option Bytes :=
  match toKeyID script with
  | some keyID => some (0 :: keyID)
  | none =>
    match toScriptID script with
    | some scriptID => some (1 :: scriptID)
    | none => toPubKey keys script

def getSpecialSize (nSize : ℕ) : ℕ := if nSize = 0 ∨ nSize = 1 then 20 else 32

/-- The script of a short form; nothing is left of a key that cannot be decompressed. -/
def decompress (keys : Keys) (nSize : ℕ) (vch : Bytes) : CScript :=
  if nSize = 0 then
    [Script.opDup, Script.opHash160, 20] ++ vch ++ [Script.opEqualVerify, Script.opCheckSig]
  else if nSize = 1 then [Script.opHash160, 20] ++ vch ++ [Script.opEqual]
  else if nSize = 2 ∨ nSize = 3 then
    33 :: UInt8.ofNat nSize :: vch ++ [Script.opCheckSig]
  else
    match keys.decompress (UInt8.ofNat (nSize - 2) :: vch) with
    | some pubkey => 65 :: pubkey ++ [Script.opCheckSig]
    | none => []

def nSpecialScripts : ℕ := 6

def writeScript (keys : Keys) (script : CScript) : Bytes :=
  match compress keys script with
  | some compr => compr
  | none => VarInt.write 32 ((script.length + nSpecialScripts) % 2 ^ 32) ++ script

def readScript (keys : Keys) (bs : Bytes) : Option (CScript × Bytes) :=
  match VarInt.read 32 bs with
  | none => none
  | some (nSize, bs) =>
    if nSize < nSpecialScripts then
      if bs.length < getSpecialSize nSize then none
      else some (decompress keys nSize (bs.take (getSpecialSize nSize)),
        bs.drop (getSpecialSize nSize))
    else if bs.length < nSize - nSpecialScripts then none
    else some (bs.take (nSize - nSpecialScripts), bs.drop (nSize - nSpecialScripts))

/-- The point of a valid uncompressed key is found again from its first coordinate and the
parity of the second. -/
def Keys.Lawful (keys : Keys) : Prop :=
  ∀ pubkey : Bytes, pubkey.length = 65 → pubkey[0]? = some 4 → keys.isFullyValid pubkey = true →
    keys.decompress ((if (pubkey.getD 64 0).toNat % 2 = 1 then 3 else 2) ::
      (pubkey.drop 1).take 32) = some pubkey

/-- A list is made of its first `i` elements, the next `k`, and the others. -/
theorem take_append_take_drop {α : Type*} (l : List α) (i k : ℕ) :
    l.take i ++ (l.drop i).take k ++ l.drop (i + k) = l := by
  rw [List.append_assoc, ← List.drop_drop, List.take_append_drop, List.take_append_drop]

section Scripts

variable {keys : Keys} {script : CScript} {h : Bytes}

theorem toKeyID_some (hs : toKeyID script = some h) :
    h.length = 20 ∧ decompress keys 0 h = script := by
  unfold toKeyID at hs
  split at hs
  · next hc =>
    obtain ⟨hlen, htake, hdrop⟩ := hc
    cases hs
    refine ⟨by simp [hlen], ?_⟩
    have hparts := take_append_take_drop script 3 20
    rw [htake, hdrop] at hparts
    exact hparts
  · cases hs

theorem toScriptID_some (hs : toScriptID script = some h) :
    h.length = 20 ∧ decompress keys 1 h = script := by
  unfold toScriptID at hs
  split at hs
  · next hc =>
    obtain ⟨hlen, htake, hdrop⟩ := hc
    cases hs
    refine ⟨by simp [hlen], ?_⟩
    have hparts := take_append_take_drop script 2 20
    rw [htake, hdrop] at hparts
    exact hparts
  · cases hs

theorem toPubKey_some (hkeys : keys.Lawful) (hs : toPubKey keys script = some h) :
    ∃ b rest, h = b :: rest ∧ rest.length = 32 ∧ 2 ≤ b.toNat ∧ b.toNat ≤ 5 ∧
      decompress keys b.toNat rest = script := by
  unfold toPubKey at hs
  split at hs
  · next hc =>
    obtain ⟨hlen, htake, hdrop, hhead⟩ := hc
    cases hs
    have hparts := take_append_take_drop script 1 33
    rw [htake, hdrop] at hparts
    have hlen' : ((script.drop 1).take 33).length = 33 := by simp [hlen]
    have hfirst : ((script.drop 1).take 33)[0]? = script[1]? := by simp
    generalize (script.drop 1).take 33 = key at hparts hlen' hfirst ⊢
    cases key with
    | nil => cases hlen'
    | cons b rest =>
      rw [← hfirst] at hhead
      rcases hhead with hb | hb
      · obtain rfl : b = 2 := Option.some.inj hb
        exact ⟨2, rest, rfl, Nat.succ.inj hlen', by decide, by decide, hparts⟩
      · obtain rfl : b = 3 := Option.some.inj hb
        exact ⟨3, rest, rfl, Nat.succ.inj hlen', by decide, by decide, hparts⟩
  · split at hs
    · next hc =>
      obtain ⟨hlen, htake, hdrop, hhead, hvalid⟩ := hc
      cases hs
      have hparts := take_append_take_drop script 1 65
      rw [htake, hdrop] at hparts
      have hlen' : ((script.drop 1).take 65).length = 65 := by simp [hlen]
      have hfirst : ((script.drop 1).take 65)[0]? = some 4 := by simpa using hhead
      have hfound := hkeys _ hlen' hfirst hvalid
      have hlast : ((script.drop 1).take 65).getD 64 0 = script.getD 65 0 := by
        simp [List.getD_eq_getElem?_getD]
      have hx : (((script.drop 1).take 65).drop 1).take 32 = (script.drop 2).take 32 := by
        simp [List.drop_take, List.take_take]
      rw [hlast, hx] at hfound
      refine ⟨_, _, rfl, by simp [hlen], ?_⟩
      split
      · next hodd =>
        rw [if_pos hodd] at hfound
        refine ⟨by decide, by decide, ?_⟩
        have hkey : keys.decompress (UInt8.ofNat ((5 : UInt8).toNat - 2) ::
            (script.drop 2).take 32) = some ((script.drop 1).take 65) := hfound
        simp only [decompress, hkey]
        exact hparts
      · next heven =>
        rw [if_neg heven] at hfound
        refine ⟨by decide, by decide, ?_⟩
        have hkey : keys.decompress (UInt8.ofNat ((4 : UInt8).toNat - 2) ::
            (script.drop 2).take 32) = some ((script.drop 1).take 65) := hfound
        simp only [decompress, hkey]
        exact hparts
    · cases hs

/-- A short form is its number and as many bytes as that number announces. -/
theorem compress_some (hkeys : keys.Lawful) (hs : compress keys script = some h) :
    ∃ b rest, h = b :: rest ∧ b.toNat < nSpecialScripts ∧ rest.length = getSpecialSize b.toNat ∧
      decompress keys b.toNat rest = script := by
  unfold compress at hs
  split at hs
  · next keyID hkey =>
    obtain ⟨hlen, hdec⟩ : keyID.length = 20 ∧ decompress keys 0 keyID = script :=
      toKeyID_some hkey
    obtain rfl := Option.some.inj hs
    exact ⟨0, keyID, rfl, by decide, hlen, hdec⟩
  · split at hs
    · next scriptID hscript =>
      obtain ⟨hlen, hdec⟩ : scriptID.length = 20 ∧ decompress keys 1 scriptID = script :=
        toScriptID_some hscript
      obtain rfl := Option.some.inj hs
      exact ⟨1, scriptID, rfl, by decide, hlen, hdec⟩
    · obtain ⟨b, rest, rfl, hlen, h2, h5, hdec⟩ := toPubKey_some hkeys hs
      refine ⟨b, rest, rfl, by unfold nSpecialScripts; omega, ?_, hdec⟩
      rw [getSpecialSize, if_neg (by omega), hlen]

theorem readScript_writeScript (hkeys : keys.Lawful)
    (hlen : script.length + nSpecialScripts < 2 ^ 32) (bs : Bytes) :
    readScript keys (writeScript keys script ++ bs) = some (script, bs) := by
  unfold writeScript
  cases hc : compress keys script with
  | some compr =>
    obtain ⟨b, rest, rfl, hb, hrest, hdec⟩ := compress_some hkeys hc
    have hsmall : VarInt.read 32 (b :: (rest ++ bs)) = some (b.toNat, rest ++ bs) :=
      VarInt.read_small (by decide) (by unfold nSpecialScripts at hb; omega) _
    have hlong : ¬ (rest ++ bs).length < getSpecialSize b.toNat := by
      rw [List.length_append]
      omega
    simp only [List.cons_append, readScript, hsmall, if_pos hb, if_neg hlong]
    rw [List.take_left' hrest, List.drop_left' hrest, hdec]
  | none =>
    have hread := VarInt.read_write (w := 32) (by decide) hlen (script ++ bs)
    have hbig : ¬ script.length + nSpecialScripts < nSpecialScripts := by omega
    have hlong : ¬ (script ++ bs).length < script.length + nSpecialScripts - nSpecialScripts := by
      rw [List.length_append]
      omega
    simp only [Nat.mod_eq_of_lt hlen, List.append_assoc, readScript, hread, if_neg hbig,
      if_neg hlong]
    rw [Nat.add_sub_cancel, List.take_left, List.drop_left]

end Scripts

end Scrypta.Compressor
