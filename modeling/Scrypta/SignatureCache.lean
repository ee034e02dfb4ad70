import Scrypta.MasternodeTexts
import Scrypta.Toolkit.StrictWeak

/-! The cache of the signatures that have been verified: what is found in it need not be verified
again. -/

namespace Scrypta.SignatureCache

open Masternodes (CPubKey getLen)
open StrictWeak

/-- A public key with its whole array. The key is at the front, and its first byte tells where it
ends; after `Invalidate` only the first byte says anything. -/
structure PubKeyArray where
  vch : Vector UInt8 65
  deriving DecidableEq

namespace PubKeyArray

def size (key : PubKeyArray) : ℕ := getLen key.vch[0]

def isValid (key : PubKeyArray) : Bool := 0 < key.size

def bytes (key : PubKeyArray) : Bytes := key.vch.toList.take key.size

/-- A constructor that leaves the key invalid: the array gets its first byte. -/
def invalidate : PubKeyArray := ⟨Vector.replicate 65 0xFF⟩

/-- `memcmp(a.vch, b.vch, n) < 0` -/
def memcmpLt (a b : PubKeyArray) (n : ℕ) : Bool :=
  lex (pull UInt8.toNat ltOf) (a.vch.toList.take n) (b.vch.toList.take n)

/-- `operator<` -/
def lt (a b : PubKeyArray) : Bool :=
  a.vch[0] < b.vch[0] || (a.vch[0] == b.vch[0] && memcmpLt a b a.size)

theorem size_le (key : PubKeyArray) : key.size ≤ 65 := by
  unfold size getLen
  split_ifs <;> decide

theorem head_toList (key : PubKeyArray) : key.vch.toList.head? = some key.vch[0] := by
  rw [List.head?_eq_getElem?]
  simp

theorem length_bytes (key : PubKeyArray) : key.bytes.length = key.size := by
  rw [bytes, List.length_take, Vector.length_toList]
  exact Nat.min_eq_left key.size_le

theorem bytes_size (key : PubKeyArray) : key.bytes.length = key.bytes.head?.elim 0 getLen := by
  rw [length_bytes, bytes, List.head?_take, head_toList]
  split
  · exact ‹key.size = 0›
  · rfl

/-- The key from `begin()` to `end()`. -/
def key (key : PubKeyArray) : CPubKey := ⟨key.bytes, key.bytes_size⟩

/-- Keys of different sizes differ in their first bytes. -/
theorem lt_eq : lt = andThen (pull (fun key => key.vch[0].toNat) ltOf)
    (pull bytes (lex (pull UInt8.toNat ltOf))) := by
  funext a b
  unfold lt andThen
  have hlt : (decide (a.vch[0] < b.vch[0])) = pull (fun key => key.vch[0].toNat) ltOf a b :=
    rfl
  rw [hlt]
  cases hfirst : pull (fun key => key.vch[0].toNat) ltOf a b with
  | true => rfl
  | false =>
    rw [Bool.false_or, Bool.false_or]
    by_cases heq : a.vch[0] = b.vch[0]
    · have hsize : a.size = b.size := congrArg getLen heq
      have hnot : pull (fun key => key.vch[0].toNat) ltOf b a = false := by
        simp [pull, ltOf, heq]
      rw [heq, beq_self_eq_true, hnot, memcmpLt, pull, bytes, bytes, hsize]
      rfl
    · have hne : a.vch[0].toNat ≠ b.vch[0].toNat := fun h => heq (UInt8.toNat_inj.1 h)
      have hle : ¬a.vch[0].toNat < b.vch[0].toNat := of_decide_eq_false hfirst
      have hgt : b.vch[0].toNat < a.vch[0].toNat := by omega
      have hbefore : pull (fun key => key.vch[0].toNat) ltOf b a = true := decide_eq_true hgt
      rw [beq_false_of_ne heq, hbefore]
      rfl

instance instStrictWeak : StrictWeak lt := lt_eq ▸ inferInstance

theorem key_eq_of_cmp {a b : PubKeyArray} (h : cmp lt a b = .eq) : a.key = b.key := by
  rw [lt_eq] at h
  have hbytes : a.bytes = b.bytes := eq_of_lex (fun h => UInt8.toNat_inj.1 (eq_of_ltOf h))
    (cmp_andThen h).2
  exact CPubKey.ext hbytes

end PubKeyArray

/-- A triple of the cache. -/
structure SigData where
  hash : Uint256
  vchSig : Bytes
  pubKey : PubKeyArray
  deriving DecidableEq

namespace SigData

/-- The order of the triples, as tuples have it. -/
def lt : SigData → SigData → Bool :=
  andThen (pull (fun k => k.hash.toNat) ltOf)
    (andThen (pull vchSig (lex (pull UInt8.toNat ltOf))) (pull pubKey PubKeyArray.lt))

instance instStrictWeak : StrictWeak lt := by
  unfold lt
  infer_instance

end SigData

abbrev Cache := OrderedSet SigData.lt

namespace Cache

/-- `CSignatureCache::Get` -/
def get (setValid : Cache) (k : SigData) : Bool := setValid.contains k

/-- A turn of the loop of `Set`; `none` where there is nothing to erase. -/
def evict (randomHash : Uint256) (setValid : Cache) : Option Cache :=
  ((setValid.lowerBound ⟨randomHash, [], .invalidate⟩).or setValid.min?).map setValid.erase

/-- `none` where the loop would need more turns. -/
def evictLoop (nMaxCacheSize : ℤ) : ℕ → (ℕ → Uint256) → Cache → Option Cache
  | 0, _, _ => none
  | turns + 1, randomHash, setValid =>
    if nMaxCacheSize < setValid.size then
      (setValid.evict (randomHash 0)).bind
        (evictLoop nMaxCacheSize turns fun i => randomHash (i + 1))
    else some setValid

/-- `CSignatureCache::Set`, with the hashes that `GetRandHash` gives. -/
def set (nMaxCacheSize : ℤ) (randomHash : ℕ → Uint256) (setValid : Cache) (k : SigData) :
    Option Cache :=
  if nMaxCacheSize ≤ 0 then some setValid
  else
    (evictLoop nMaxCacheSize (setValid.size + 1) randomHash setValid).map fun kept =>
      kept.insert k

end Cache

/-- A call of `VerifySignature`, and the setting and the random hashes that it meets. -/
structure Call where
  vchSig : Bytes
  pubkey : PubKeyArray
  sighash : Uint256
  store : Bool
  nMaxCacheSize : ℤ
  randomHash : ℕ → Uint256

def Call.data (call : Call) : SigData := ⟨call.sighash, call.vchSig, call.pubkey⟩

section Verifying

variable (ecdsaVerify : CPubKey → Uint256 → Bytes → Bool)

/-- `CPubKey::Verify` -/
def verify (pubkey : PubKeyArray) (hash : Uint256) (vchSig : Bytes) : Bool :=
  pubkey.isValid && ecdsaVerify pubkey.key hash vchSig

def SigData.verified (k : SigData) : Bool := verify ecdsaVerify k.pubKey k.hash k.vchSig

/-- `CachingTransactionSignatureChecker::VerifySignature` -/
def verifySignature (setValid : Cache) (call : Call) : Option (Bool × Cache) :=
  if setValid.get call.data then some (true, setValid)
  else if !verify ecdsaVerify call.pubkey call.sighash call.vchSig then some (false, setValid)
  else if call.store then
    (setValid.set call.nMaxCacheSize call.randomHash call.data).map fun kept => (true, kept)
  else some (true, setValid)

/-- The results of calls one after the other, and the cache that they leave. -/
def verifySignatures : Cache → List Call → Option (List Bool × Cache)
  | setValid, [] => some ([], setValid)
  | setValid, call :: calls =>
    (verifySignature ecdsaVerify setValid call).bind fun step =>
      (verifySignatures step.2 calls).map fun rest => (step.1 :: rest.1, rest.2)

/-- What the cache holds, as far as it can tell triples apart, has verified. -/
def Sound (setValid : Cache) : Prop :=
  ∀ k, setValid.get k = true → k.verified ecdsaVerify = true

variable {ecdsaVerify}

/-- Triples that the cache does not tell apart have the same verdict. -/
theorem verified_eq_of_cmp {k k' : SigData} (h : cmp SigData.lt k k' = .eq) :
    k.verified ecdsaVerify = k'.verified ecdsaVerify := by
  obtain ⟨hhash, hrest⟩ := cmp_andThen h
  obtain ⟨hsig, hkey⟩ := cmp_andThen hrest
  have hhash : k.hash = k'.hash := BitVec.eq_of_toNat_eq (eq_of_ltOf hhash)
  have hsig : k.vchSig = k'.vchSig :=
    eq_of_lex (fun h => UInt8.toNat_inj.1 (eq_of_ltOf h)) hsig
  have hkey : k.pubKey.key = k'.pubKey.key := PubKeyArray.key_eq_of_cmp hkey
  have hvalid : k.pubKey.isValid = k'.pubKey.isValid := by
    have hlen := congrArg (fun key => key.vch.length) hkey
    simp only [PubKeyArray.key, PubKeyArray.length_bytes] at hlen
    rw [PubKeyArray.isValid, PubKeyArray.isValid, hlen]
  rw [SigData.verified, verify, SigData.verified, verify, hhash, hsig, hkey, hvalid]

theorem Sound.insert {setValid : Cache} (h : Sound ecdsaVerify setValid) {k : SigData}
    (hk : k.verified ecdsaVerify = true) : Sound ecdsaVerify (setValid.insert k) := by
  intro k' hget
  rw [Cache.get, Std.TreeSet.contains_insert, Bool.or_eq_true, beq_iff_eq] at hget
  cases hget with
  | inl heq => rwa [← verified_eq_of_cmp heq]
  | inr hmem => exact h k' hmem

theorem Sound.erase {setValid : Cache} (h : Sound ecdsaVerify setValid) (k : SigData) :
    Sound ecdsaVerify (setValid.erase k) :=
  fun k' hget => h k' (Std.TreeSet.contains_of_contains_erase hget)

/-- A turn erases one entry, whatever the random hash is. -/
theorem evict_spec (setValid : Cache) (h : 0 < setValid.size) (randomHash : Uint256) :
    ∃ e, setValid.evict randomHash = some (setValid.erase e) ∧
      (setValid.erase e).size + 1 = setValid.size := by
  unfold Cache.evict
  cases hbound : setValid.lowerBound ⟨randomHash, [], .invalidate⟩ with
  | some e => exact ⟨e, rfl, OrderedSet.size_erase_of_mem (OrderedSet.mem_of_lowerBound hbound)⟩
  | none =>
    cases hmin : setValid.min? with
    | some e =>
      have hmem := Std.TreeSet.contains_iff_mem.1 (Std.TreeSet.contains_min? hmin)
      exact ⟨e, rfl, OrderedSet.size_erase_of_mem hmem⟩
    | none =>
      rw [Std.TreeSet.min?_eq_none_iff, Std.TreeSet.isEmpty_eq_size_eq_zero, beq_iff_eq] at hmin
      omega

theorem evictLoop_spec (nMaxCacheSize : ℤ) (hpos : 0 ≤ nMaxCacheSize) {turns : ℕ}
    (randomHash : ℕ → Uint256) {setValid : Cache} (hturns : setValid.size < turns)
    (h : Sound ecdsaVerify setValid) :
    ∃ kept, Cache.evictLoop nMaxCacheSize turns randomHash setValid = some kept ∧
      Sound ecdsaVerify kept ∧ (kept.size : ℤ) ≤ nMaxCacheSize := by
  induction turns generalizing randomHash setValid with
  | zero => exact absurd hturns (Nat.not_lt_zero _)
  | succ turns ih =>
    rw [Cache.evictLoop]
    by_cases hfull : nMaxCacheSize < setValid.size
    · obtain ⟨e, hevict, hsize⟩ := evict_spec setValid (by omega) (randomHash 0)
      rw [if_pos hfull, hevict, Option.bind_some]
      exact ih _ (by omega) (h.erase e)
    · rw [if_neg hfull]
      exact ⟨setValid, rfl, h, by omega⟩

/-- `Set` stores a triple that has verified in one entry more than the setting allows at most. -/
theorem set_spec (nMaxCacheSize : ℤ) (randomHash : ℕ → Uint256) {setValid : Cache} {k : SigData}
    (h : Sound ecdsaVerify setValid) (hk : k.verified ecdsaVerify = true) :
    ∃ kept, setValid.set nMaxCacheSize randomHash k = some kept ∧ Sound ecdsaVerify kept ∧
      ((kept.size : ℤ) ≤ nMaxCacheSize + 1 ∨ kept = setValid) := by
  unfold Cache.set
  by_cases hoff : nMaxCacheSize ≤ 0
  · rw [if_pos hoff]
    exact ⟨setValid, rfl, h, Or.inr rfl⟩
  · obtain ⟨kept, hloop, hsound, hsize⟩ := evictLoop_spec nMaxCacheSize (by omega)
      randomHash (Nat.lt_succ_self _) h
    rw [if_neg hoff, hloop]
    have hle : (kept.insert k).size ≤ kept.size + 1 := Std.TreeSet.size_insert_le
    exact ⟨kept.insert k, rfl, hsound.insert hk, Or.inl (by omega)⟩

/-- A call gives the verdict of the key, and leaves a cache of the same kind. -/
theorem verifySignature_spec {setValid : Cache} (h : Sound ecdsaVerify setValid) (call : Call) :
    ∃ kept, verifySignature ecdsaVerify setValid call =
        some (verify ecdsaVerify call.pubkey call.sighash call.vchSig, kept) ∧
      Sound ecdsaVerify kept ∧
      ((kept.size : ℤ) ≤ call.nMaxCacheSize + 1 ∨ kept = setValid) := by
  unfold verifySignature
  cases hget : setValid.get call.data with
  | true =>
    have hverified : verify ecdsaVerify call.pubkey call.sighash call.vchSig = true :=
      h call.data hget
    rw [if_pos rfl, hverified]
    exact ⟨setValid, rfl, h, Or.inr rfl⟩
  | false =>
    rw [if_neg Bool.false_ne_true]
    cases hverified : verify ecdsaVerify call.pubkey call.sighash call.vchSig with
    | false => exact ⟨setValid, rfl, h, Or.inr rfl⟩
    | true =>
      rw [Bool.not_true, if_neg Bool.false_ne_true]
      cases call.store with
      | false => exact ⟨setValid, rfl, h, Or.inr rfl⟩
      | true =>
        obtain ⟨kept, hset, hsound, hsize⟩ :=
          set_spec call.nMaxCacheSize call.randomHash h (k := call.data) hverified
        rw [if_pos rfl, hset]
        exact ⟨kept, rfl, hsound, hsize⟩

theorem verifySignatures_spec {setValid : Cache} (h : Sound ecdsaVerify setValid)
    (calls : List Call) {bound : ℤ} (hcalls : ∀ call ∈ calls, call.nMaxCacheSize ≤ bound)
    (hsize : (setValid.size : ℤ) ≤ max (bound + 1) 0) :
    ∃ kept, verifySignatures ecdsaVerify setValid calls =
        some (calls.map fun call => verify ecdsaVerify call.pubkey call.sighash call.vchSig,
          kept) ∧
      Sound ecdsaVerify kept ∧ (kept.size : ℤ) ≤ max (bound + 1) 0 := by
  induction calls generalizing setValid with
  | nil => exact ⟨setValid, rfl, h, hsize⟩
  | cons call calls ih =>
    obtain ⟨kept, hcall, hsound, hkept⟩ := verifySignature_spec h call
    have hle : (kept.size : ℤ) ≤ max (bound + 1) 0 := by
      cases hkept with
      | inl hle =>
        have hbound := hcalls call List.mem_cons_self
        omega
      | inr heq => rwa [heq]
    obtain ⟨rest, hrest, hlast⟩ := ih hsound
      (fun call hmem => hcalls call (List.mem_cons_of_mem _ hmem)) hle
    rw [verifySignatures, hcall, Option.bind_some, hrest]
    exact ⟨rest, rfl, hlast⟩

end Verifying

theorem sound_empty (ecdsaVerify : CPubKey → Uint256 → Bytes → Bool) : Sound ecdsaVerify ∅ := by
  intro k hget
  rw [Cache.get, Std.TreeSet.contains_emptyc] at hget
  cases hget

/-- With a setting below -1 the empty cache has more entries than the setting and one. -/
theorem negative_setting :
    ∃ kept, verifySignatures (fun _ _ _ => true) ∅
        [⟨[], .invalidate, 0, true, -2, fun _ => 0⟩] = some ([false], kept) ∧
      ¬(kept.size : ℤ) ≤ -2 + 1 := by
  refine ⟨∅, ?_, ?_⟩
  · rfl
  · rw [Std.TreeSet.size_emptyc]
    decide

/-- The cache changes no verdict. It holds triples that have verified, one more than the largest
setting at most, and the loop that makes room in it comes to an end. -/
theorem cache_changes_no_verdict (ecdsaVerify : CPubKey → Uint256 → Bytes → Bool)
    (calls : List Call) (nMaxCacheSize : ℤ)
    (h : ∀ call ∈ calls, call.nMaxCacheSize ≤ nMaxCacheSize) :
    ∃ setValid, verifySignatures ecdsaVerify ∅ calls =
        some (calls.map fun call => verify ecdsaVerify call.pubkey call.sighash call.vchSig,
          setValid) ∧
      (∀ k ∈ setValid.toList, k.verified ecdsaVerify = true) ∧
      (setValid.size : ℤ) ≤ max (nMaxCacheSize + 1) 0 := by
  have hempty : ((∅ : Cache).size : ℤ) ≤ max (nMaxCacheSize + 1) 0 := by
    rw [Std.TreeSet.size_emptyc]
    exact le_max_right _ _
  obtain ⟨setValid, hrun, hsound, hsize⟩ :=
    verifySignatures_spec (sound_empty ecdsaVerify) calls h hempty
  refine ⟨setValid, hrun, fun k hmem => hsound k ?_, hsize⟩
  exact Std.TreeSet.contains_iff_mem.2 (Std.TreeSet.mem_of_mem_toList hmem)

def storedCall : Call := ⟨[0x30], ⟨Vector.replicate 65 2⟩, 7, true, 1, fun _ => 0⟩

theorem cache_changes_no_verdict_twice :
    ∃ setValid, verifySignatures (fun _ _ _ => true) ∅ [storedCall, storedCall] =
        some ([true, true], setValid) ∧
      (∀ k ∈ setValid.toList, k.verified (fun _ _ _ => true) = true) ∧
      (setValid.size : ℤ) ≤ max (1 + 1) 0 :=
  cache_changes_no_verdict (fun _ _ _ => true) [storedCall, storedCall] 1 (by decide)

end Scrypta.SignatureCache
