import Scrypta.BlockSignature
import Scrypta.StandardRuns

/-! Destinations, the scripts that pay to them, and how they are read back. -/

namespace Scrypta.Script

open Interpreter
open LittleEndian (encode)
open Masternodes (CPubKey)
open Signing (pubKeyOf isValid uint160Of)

inductive CTxDestination
  | noDestination
  | keyID (id : BitVec 160)
  | scriptID (id : BitVec 160)
  deriving DecidableEq, Repr

def getScriptForDestination : CTxDestination → CScript
  | .noDestination => []
  | .keyID id => payToPubKeyHash (encode 20 id.toNat)
  | .scriptID id => payToScriptHash (encode 20 id.toNat)

/-- `EncodeOP_N`; `none` is the assertion. -/
def encodeOpN (n : ℤ) : Option UInt8 :=
  if 0 ≤ n ∧ n ≤ 16 then some (if n = 0 then op0 else opN n.toNat) else none

def getScriptForMultisig (nRequired : ℤ) (keys : List CPubKey) : Option CScript := do
  let opm ← encodeOpN nRequired
  let opn ← encodeOpN (toInt32 keys.length)
  return opm :: (keys.flatMap (fun key => ScriptNum.pushData key.vch) ++ [opn, opCheckMultiSig])

/-- What `ExtractDestinations` returns and leaves in its arguments. -/
structure Extracted where
  ok : Bool
  typeRet : TxnOutType
  addressRet : List CTxDestination
  nRequiredRet : ℤ
  deriving DecidableEq, Repr

section Extracting

variable (hash160 : Bytes → BitVec 160)

/-- `CPubKey::GetID` -/
def getID (pubKey : CPubKey) : BitVec 160 := hash160 pubKey.vch

/-- The outer `none` is a solution that is not there, or one of a wrong size for a `uint160`. -/
def extractDestination (scriptPubKey : CScript) : Option (Option CTxDestination) :=
  let solved := solver scriptPubKey []
  if !solved.ok then some none
  else if solved.whichType = .pubkey then
    solved.vSolutions[0]?.map fun vch =>
      if isValid (pubKeyOf vch) then some (.keyID (getID hash160 (pubKeyOf vch))) else none
  else if solved.whichType = .pubkeyhash then
    (solved.vSolutions[0]?.bind uint160Of).map fun id => some (.keyID id)
  else if solved.whichType = .scripthash then
    (solved.vSolutions[0]?.bind uint160Of).map fun id => some (.scriptID id)
  else some none

/-- The loop over the keys of a multisignature script passes over those that are not valid. -/
def addressesOf (keys : List Bytes) : List CTxDestination :=
  ((keys.map pubKeyOf).filter isValid).map fun pubKey => .keyID (getID hash160 pubKey)

def extractDestinations (scriptPubKey : CScript) (nRequiredRet : ℤ) : Option Extracted :=
  let solved := solver scriptPubKey []
  if !solved.ok then some ⟨false, solved.whichType, [], nRequiredRet⟩
  else if solved.whichType = .nulldata then some ⟨false, .nulldata, [], nRequiredRet⟩
  else if solved.whichType = .multisig then
    (solved.vSolutions.head?.bind List.head?).map fun m =>
      let addressRet := addressesOf hash160 solved.vSolutions.tail.dropLast
      ⟨!addressRet.isEmpty, .multisig, addressRet, m.toNat⟩
  else
    (extractDestination hash160 scriptPubKey).map fun address =>
      ⟨address.isSome, solved.whichType, address.toList, 1⟩

theorem extractDestination_ne_none (s : CScript) : extractDestination hash160 s ≠ none := by
  rw [extractDestination]
  by_cases hstandard : ∃ t v, Standard s t v
  · obtain ⟨t, v, hstandard⟩ := hstandard
    rw [solver_of_standard hstandard]
    cases hstandard with
    | scripthash hlen _ => simp [carried, uint160Of, hlen]
    | nulldata => simp
    | pubkey => simp [carried]
    | pubkeyhash hlen _ => simp [carried, uint160Of, hlen]
    | multisig => simp
  · have hnone : ∀ t v, ¬Standard s t v := fun t v hstd => hstandard ⟨t, v, hstd⟩
    rcases solver_of_not_standard [] hnone with ⟨m, keys, n, -, hsolver⟩ | hsolver
    · rw [hsolver]
      simp
    · rw [hsolver]
      simp

theorem extractDestinations_ne_none (s : CScript) (nRequiredRet : ℤ) :
    extractDestinations hash160 s nRequiredRet ≠ none := by
  rw [extractDestinations]
  split_ifs with hfail hnull hmulti
  · exact Option.some_ne_none _
  · exact Option.some_ne_none _
  · obtain ⟨m, keys, n, hsolutions⟩ := solutions_of_multisig hmulti
    rw [hsolutions]
    exact Option.some_ne_none _
  · rw [Ne, Option.map_eq_none_iff]
    exact extractDestination_ne_none hash160 s

/-- An identifier is read back from its bytes. -/
theorem uint160Of_encode (id : BitVec 160) : uint160Of (encode 20 id.toNat) = some id := by
  rw [uint160Of, if_pos (LittleEndian.length_encode 20 _),
    LittleEndian.decode_encode_of_lt (Nat.lt_of_lt_of_le id.isLt (by decide)),
    BitVec.ofNat_toNat, BitVec.setWidth_eq]

theorem standard_payToPubKeyHash {hash : Bytes} (h : hash.length = 20) :
    Standard (payToPubKeyHash hash) .pubkeyhash [hash] := by
  have hparses : Parses (payToPubKeyHash hash) [(opDup, []), (opHash160, []),
      (pushOpcode hash, hash), (opEqualVerify, []), (opCheckSig, [])] := by
    rw [payToPubKeyHash, parses_opcode_iff (by decide)]
    refine ⟨_, rfl, (parses_opcode_iff (by decide)).2 ⟨_, rfl, ?_⟩⟩
    rw [parses_pushData (by rw [h]; decide), parses_opcode_iff (by decide)]
    exact ⟨_, rfl, (parses_opcode_iff (by decide)).2 ⟨_, rfl, parses_nil_iff.2 rfl⟩⟩
  exact Standard.pubkeyhash h hparses

theorem standard_payToScriptHash {hash : Bytes} (h : hash.length = 20) :
    Standard (payToScriptHash hash) .scripthash [hash] := by
  refine Standard.scripthash h ?_
  rw [payToScriptHash, ScriptNum.pushData, h]
  rfl

theorem extractDestination_keyID (id : BitVec 160) :
    extractDestination hash160 (getScriptForDestination (.keyID id)) = some (some (.keyID id)) := by
  have hstandard := standard_payToPubKeyHash (LittleEndian.length_encode 20 id.toNat)
  rw [extractDestination, getScriptForDestination, solver_of_standard hstandard]
  simp [carried, uint160Of_encode]

theorem extractDestination_scriptID (id : BitVec 160) :
    extractDestination hash160 (getScriptForDestination (.scriptID id)) =
      some (some (.scriptID id)) := by
  have hstandard := standard_payToScriptHash (LittleEndian.length_encode 20 id.toNat)
  rw [extractDestination, getScriptForDestination, solver_of_standard hstandard]
  simp [carried, uint160Of_encode]

/-! Multisignature scripts of valid keys. -/

theorem keySized_of_valid {key : CPubKey} (h : isValid key = true) : KeySized key.vch := by
  have hsize := key.size_eq
  have hpos : 0 < key.vch.length := of_decide_eq_true h
  unfold KeySized
  cases hvch : key.vch with
  | nil => simp [hvch] at hpos
  | cons c rest =>
    rw [hvch] at hsize hpos
    rw [hsize] at hpos ⊢
    simp only [List.head?_cons, Option.elim_some, Masternodes.getLen] at hpos ⊢
    split_ifs at hpos ⊢ <;> omega

theorem pubKeyOf_vch (key : CPubKey) : pubKeyOf key.vch = key := by
  rw [pubKeyOf, dif_pos key.size_eq]

/-- The pushes of keys that `<<` makes. -/
theorem parses_keys {keys : List Bytes} {rest : CScript} {ops : List (UInt8 × Bytes)}
    (hall : ∀ key ∈ keys, KeySized key) (hcount : keys.length ≤ 16) (hrest : rest.length ≤ 2)
    (h : Parses rest ops) :
    Parses (keys.flatMap ScriptNum.pushData ++ rest)
      (keys.map (fun key => (pushOpcode key, key)) ++ ops) ∧
      (keys.flatMap ScriptNum.pushData ++ rest).length ≤ 66 * keys.length + 2 := by
  induction keys with
  | nil =>
    rw [List.flatMap_nil, List.nil_append]
    exact ⟨h, by simpa using hrest⟩
  | cons key keys ih =>
    rw [List.length_cons] at hcount
    obtain ⟨hparses, hlen⟩ := ih (fun key hkey => hall key (List.mem_cons_of_mem _ hkey)) (by omega)
    obtain ⟨hlo, hhi⟩ := hall key List.mem_cons_self
    have hpush : (ScriptNum.pushData key).length = key.length + 1 := by
      rw [ScriptNum.pushData, if_pos (Nat.lt_of_le_of_lt hhi (by decide)), List.length_cons]
    rw [List.flatMap_cons, List.append_assoc, List.map_cons, List.cons_append]
    refine ⟨(parses_pushData (by omega)).2 hparses, ?_⟩
    rw [List.length_append, hpush, List.length_cons]
    omega

theorem getScriptForMultisig_spec {m : ℕ} {keys : List CPubKey} (hm : 1 ≤ m)
    (hle : m ≤ keys.length) (hmax : keys.length ≤ 16) (hall : ∀ key ∈ keys, isValid key = true) :
    ∃ script, getScriptForMultisig m keys = some script ∧
      Standard script .multisig ([UInt8.ofNat m] :: (keys.map CPubKey.vch ++
        [[UInt8.ofNat keys.length]])) := by
  have hopn : ∀ n : ℕ, 1 ≤ n → n ≤ 16 → encodeOpN n = some (opN n) := by
    intro n hlo hhi
    rw [encodeOpN, if_pos (by omega), if_neg (by omega), Int.toNat_natCast]
  have hint : toInt32 keys.length = (keys.length : ℤ) :=
    toInt32_eq_self (by omega) (by omega)
  let pushes := (keys.map CPubKey.vch).map fun key => (pushOpcode key, key)
  have hlength : pushes.length = keys.length := by simp [pushes]
  have hsnd : pushes.map Prod.snd = keys.map CPubKey.vch := by
    simp only [pushes, List.map_map]
    rfl
  have hsized : ∀ key ∈ keys.map CPubKey.vch, KeySized key := by
    intro vch hvch
    obtain ⟨key, hkey, rfl⟩ := List.mem_map.1 hvch
    exact keySized_of_valid (hall key hkey)
  have htail : Parses [opN keys.length, opCheckMultiSig]
      [(opN keys.length, []), (opCheckMultiSig, [])] := by
    rw [parses_opcode_iff (opPushData4_lt_opN (by omega))]
    exact ⟨_, rfl, (parses_opcode_iff (by decide)).2 ⟨_, rfl, parses_nil_iff.2 rfl⟩⟩
  obtain ⟨hparses, -⟩ := parses_keys hsized (by rw [List.length_map]; exact hmax) (Nat.le_refl _)
    htail
  refine ⟨opN m :: ((keys.map CPubKey.vch).flatMap ScriptNum.pushData ++
    [opN keys.length, opCheckMultiSig]), ?_, ?_⟩
  · rw [getScriptForMultisig, hint, hopn m hm (by omega), hopn keys.length (by omega) hmax,
      List.flatMap_map]
    rfl
  · rw [← hsnd, ← hlength]
    refine Standard.multisig hm (by omega) (by omega) ?_ ?_
    · intro p hp
      obtain ⟨key, hkey, rfl⟩ := List.mem_map.1 hp
      exact hsized key hkey
    · rw [parses_opcode_iff (opPushData4_lt_opN (by omega))]
      rw [hsnd, hlength]
      exact ⟨_, rfl, hparses⟩

theorem extractDestinations_multisig {m : ℕ} {keys : List CPubKey} (nRequiredRet : ℤ)
    (hm : 1 ≤ m) (hle : m ≤ keys.length) (hmax : keys.length ≤ 16)
    (hall : ∀ key ∈ keys, isValid key = true) :
    ∃ script, getScriptForMultisig m keys = some script ∧
      extractDestinations hash160 script nRequiredRet =
        some ⟨true, .multisig, keys.map fun key => .keyID (getID hash160 key), m⟩ := by
  obtain ⟨script, hscript, hstandard⟩ := getScriptForMultisig_spec hm hle hmax hall
  have hkeys : addressesOf hash160 (keys.map CPubKey.vch) =
      keys.map fun key => .keyID (getID hash160 key) := by
    have hback : (keys.map CPubKey.vch).map pubKeyOf = keys := by
      rw [List.map_map]
      exact (List.map_congr_left fun key _ => pubKeyOf_vch key).trans (List.map_id _)
    rw [addressesOf, hback, List.filter_eq_self.2 hall]
  have hne : keys ≠ [] := by
    rintro rfl
    exact absurd (Nat.le_trans hm hle) (by decide)
  refine ⟨script, hscript, ?_⟩
  rw [extractDestinations, solver_of_standard hstandard]
  simp only [carried, List.nil_append, List.tail_cons, List.dropLast_concat, hkeys]
  simp [hne, toNat_ofNat_of_lt (show m < 256 by omega)]

end Extracting

/-- Data that is pushed after `OP_RETURN` is no solution, and a hash that is pushed in a longer
way makes no payment to a script hash. -/
theorem solver_passes_over :
    Parses [opReturn, 1, 7] [(opReturn, []), (1, [7])] ∧
      solver [opReturn, 1, 7] [] = ⟨true, .nulldata, []⟩ ∧
      Parses ([opHash160, opPushData1, 20] ++ List.replicate 20 0 ++ [opEqual])
        [(opHash160, []), (opPushData1, List.replicate 20 0), (opEqual, [])] ∧
      solver ([opHash160, opPushData1, 20] ++ List.replicate 20 0 ++ [opEqual]) [] =
        ⟨false, .nonstandard, []⟩ := by
  refine ⟨?_, ?_, ?_, ?_⟩
  · exact ⟨by decide, by decide⟩
  · decide
  · exact ⟨by decide, by decide⟩
  · decide

/-- `Solver` recognises the standard scripts and no others, and does not read beyond its
solutions; destinations are read back from the scripts that pay to them. -/
theorem templates_recognised :
    (∀ s vSolutionsRet t found, solver s vSolutionsRet = ⟨true, t, found⟩ ↔
      ∃ v, Standard s t v ∧ found = carried t vSolutionsRet ++ v) ∧
    (∀ s vSolutionsRet, (∀ t v, ¬Standard s t v) →
      (solver s vSolutionsRet).ok = false ∧
        ((solver s vSolutionsRet).whichType = .multisig ∨
          solver s vSolutionsRet = ⟨false, .nonstandard, []⟩)) ∧
    (∀ s vSolutionsRet, (solver s vSolutionsRet).whichType = .multisig →
      ∃ m keys n, (solver s vSolutionsRet).vSolutions = [m] :: (keys ++ [[n]])) ∧
    ∀ hash160 : Bytes → BitVec 160,
      (∀ s, extractDestination hash160 s ≠ none) ∧
      (∀ s nRequiredRet, extractDestinations hash160 s nRequiredRet ≠ none) ∧
      (∀ id, extractDestination hash160 (getScriptForDestination (.keyID id)) =
          some (some (.keyID id)) ∧
        extractDestination hash160 (getScriptForDestination (.scriptID id)) =
          some (some (.scriptID id))) ∧
      ∀ (m : ℕ) (keys : List CPubKey) (nRequiredRet : ℤ), 1 ≤ m → m ≤ keys.length →
        keys.length ≤ 16 → (∀ key ∈ keys, isValid key = true) →
        ∃ script, getScriptForMultisig m keys = some script ∧
          extractDestinations hash160 script nRequiredRet =
            some ⟨true, .multisig, keys.map fun key => .keyID (getID hash160 key), m⟩ := by
  refine ⟨fun s vSolutionsRet t found => solver_eq_true_iff, fun s vSolutionsRet h => ?_,
    fun s vSolutionsRet => solutions_of_multisig, fun hash160 =>
    ⟨extractDestination_ne_none hash160, extractDestinations_ne_none hash160, fun id =>
      ⟨extractDestination_keyID hash160 id, extractDestination_scriptID hash160 id⟩,
      fun m keys nRequiredRet => extractDestinations_multisig hash160 nRequiredRet⟩⟩
  rcases solver_of_not_standard vSolutionsRet h with ⟨m, keys, n, -, hsolver⟩ | hsolver
  · rw [hsolver]
    exact ⟨rfl, Or.inl rfl⟩
  · rw [hsolver]
    exact ⟨rfl, Or.inr rfl⟩

end Scrypta.Script
