import Mathlib.Data.List.Dedup
import Mathlib.Data.List.Lex
import Scrypta.SigningComplete
import Scrypta.Toolkit.FirstFit

/-! Combining two scripts for one input. `CombineSignatures` takes the signatures out of both and
writes one script with them. -/

namespace Scrypta.Signing

open Interpreter
open Script (TxnOutType Solved solver firstByte)
open SignatureHash (CMutableTransaction)

/-- The order of byte vectors. -/
def BytesLe (a b : Bytes) : Prop := a.map UInt8.toNat ≤ b.map UInt8.toNat

instance : DecidableRel BytesLe := fun a b =>
  inferInstanceAs (Decidable (a.map UInt8.toNat ≤ b.map UInt8.toNat))

/-- `PushAll`. The values are in the order of their pushes, while a stack has its top first. -/
def pushAll (values : List Bytes) : CScript := values.flatMap ScriptNum.pushData

/-- The set `allsigs` in its order. -/
def allSigs (sigs1 sigs2 : List Bytes) : List Bytes :=
  ((sigs1 ++ sigs2).filter fun v => !v.isEmpty).dedup.insertionSort BytesLe

/-- The loop over the keys writes the signatures of the first ones that have any. -/
def writeSigs (sigs : Dict Bytes Bytes) (nSigsRequired : ℕ) :
    List Bytes → ℕ → CScript → ℕ × CScript
  | [], nSigsHave, result => (nSigsHave, result)
  | pubkey :: rest, nSigsHave, result =>
    if nSigsHave < nSigsRequired then
      match sigs.find pubkey with
      | none => writeSigs sigs nSigsRequired rest nSigsHave result
      | some sig =>
        writeSigs sigs nSigsRequired rest (nSigsHave + 1) (result ++ ScriptNum.pushData sig)
    else (nSigsHave, result)

section Combine

variable (hashes : Hashes) (sch : Scheme) (txTo : CMutableTransaction) (nIn : ℕ)

/-- A signature goes to the first key without one that it is good for. -/
def assign (scriptPubKey : CScript) (keys : List Bytes) (sigs : Dict Bytes Bytes) (sig : Bytes) :
    Dict Bytes Bytes :=
  match keys.find? fun pubkey =>
      !sigs.count pubkey && checkSig hashes sch txTo nIn sig pubkey scriptPubKey with
  | none => sigs
  | some pubkey => sigs.set pubkey sig

def combineMultisig (scriptPubKey : CScript) (vSolutions sigs1 sigs2 : List Bytes) : CScript :=
  let nSigsRequired := firstByte vSolutions.head?
  let keys := (vSolutions.drop 1).dropLast
  let sigs := (allSigs sigs1 sigs2).foldl (assign hashes sch txTo nIn scriptPubKey keys) .empty
  -- pop-one-too-many workaround
  let (nSigsHave, result) := writeSigs sigs nSigsRequired keys 0 [ScriptNum.op0]
  result ++ List.replicate (nSigsRequired - nSigsHave) ScriptNum.op0

/-- The inner `CombineSignatures`, with the solutions that its callers compute. -/
def combineStacks (scriptPubKey : CScript) (sigs1 sigs2 : List Bytes) : CScript :=
  match (solver scriptPubKey []).whichType with
  | .nonstandard | .nulldata =>
    if sigs2.length ≤ sigs1.length then pushAll sigs1.reverse else pushAll sigs2.reverse
  | .pubkey | .pubkeyhash =>
    match sigs1.getLast? with
    | none | some [] => pushAll sigs2.reverse
    | some _ => pushAll sigs1.reverse
  | .scripthash =>
    match sigs1 with
    | [] => pushAll sigs2.reverse
    | spk :: rest1 =>
      if spk = [] then pushAll sigs2.reverse
      else
        match sigs2 with
        | [] => pushAll sigs1.reverse
        | back :: rest2 =>
          if back = [] then pushAll sigs1.reverse
          else combineStacks spk rest1 rest2 ++ ScriptNum.pushData spk
  | .multisig =>
    combineMultisig hashes sch txTo nIn scriptPubKey (solver scriptPubKey []).vSolutions sigs1 sigs2

/-- The stack that a script leaves; where the run fails, what it leaves is a parameter. -/
def stackOf (leftover : CScript → List Bytes) (scriptSig : CScript) : List Bytes :=
  match (evalScript ⟨hashes, fun _ _ _ => false, scriptVerifyStrictEnc⟩ [] scriptSig).2 with
  | .ok stack => stack
  | .error _ => leftover scriptSig

def combineSignatures (leftover : CScript → List Bytes)
    (scriptPubKey scriptSig1 scriptSig2 : CScript) : CScript :=
  combineStacks hashes sch txTo nIn scriptPubKey (stackOf hashes leftover scriptSig1)
    (stackOf hashes leftover scriptSig2)

end Combine

/-! The set of the signatures. -/

theorem bytesLe_antisymm {a b : Bytes} (hab : BytesLe a b) (hba : BytesLe b a) : a = b :=
  List.map_injective_iff.2 (fun _ _ => UInt8.toNat_inj.1) (le_antisymm hab hba)

instance : Std.Total BytesLe := ⟨fun a b => le_total (a.map UInt8.toNat) (b.map UInt8.toNat)⟩

instance : IsTrans Bytes BytesLe :=
  ⟨fun a b _ (hab : a.map UInt8.toNat ≤ b.map UInt8.toNat) hbc => le_trans hab hbc⟩

theorem mem_allSigs {sigs1 sigs2 : List Bytes} {v : Bytes} :
    v ∈ allSigs sigs1 sigs2 ↔ (v ∈ sigs1 ∨ v ∈ sigs2) ∧ v ≠ [] := by
  rw [allSigs, List.mem_insertionSort, List.mem_dedup, List.mem_filter, List.mem_append]
  simp

/-- It is the same set for both orders. -/
theorem allSigs_comm (sigs1 sigs2 : List Bytes) : allSigs sigs1 sigs2 = allSigs sigs2 sigs1 := by
  have hperm : (allSigs sigs1 sigs2).Perm (allSigs sigs2 sigs1) := by
    refine (List.perm_insertionSort _ _).trans (.trans ?_ (List.perm_insertionSort _ _).symm)
    refine (List.perm_ext_iff_of_nodup (List.nodup_dedup _) (List.nodup_dedup _)).2 fun v => ?_
    rw [List.mem_dedup, List.mem_dedup, List.mem_filter, List.mem_filter, List.mem_append,
      List.mem_append, or_comm]
  exact hperm.eq_of_pairwise (fun _ _ _ _ => bytesLe_antisymm) (List.pairwise_insertionSort _ _)
    (List.pairwise_insertionSort _ _)

/-! What is written. -/

theorem pushAll_append (l l' : List Bytes) : pushAll (l ++ l') = pushAll l ++ pushAll l' :=
  List.flatMap_append

theorem pushAll_replicate_nil (n : ℕ) :
    pushAll (List.replicate n []) = List.replicate n ScriptNum.op0 := by
  induction n with
  | zero => rfl
  | succ n ih =>
    rw [List.replicate_succ, List.replicate_succ, ← ih]
    rfl

theorem writeSigs_eq (sigs : Dict Bytes Bytes) (nSigsRequired : ℕ) (keys : List Bytes)
    (nSigsHave : ℕ) (result : CScript) :
    writeSigs sigs nSigsRequired keys nSigsHave result =
      (nSigsHave + ((keys.filterMap sigs.find).take (nSigsRequired - nSigsHave)).length,
        result ++ pushAll ((keys.filterMap sigs.find).take (nSigsRequired - nSigsHave))) := by
  induction keys generalizing nSigsHave result with
  | nil => simp [writeSigs, pushAll]
  | cons pubkey keys ih =>
    rw [writeSigs]
    by_cases hmore : nSigsHave < nSigsRequired
    · rw [if_pos hmore]
      cases hfind : sigs.find pubkey with
      | none =>
        rw [List.filterMap_cons_none hfind]
        exact ih _ _
      | some sig =>
        obtain ⟨k, hk⟩ : ∃ k, nSigsRequired - nSigsHave = k + 1 :=
          ⟨nSigsRequired - (nSigsHave + 1), by omega⟩
        have hk' : nSigsRequired - (nSigsHave + 1) = k := by omega
        dsimp only
        rw [ih, hk', hk, List.filterMap_cons_some hfind, List.take_succ_cons, List.length_cons,
          List.append_assoc, Nat.add_assoc, Nat.add_comm 1]
        rfl
    · rw [if_neg hmore, Nat.sub_eq_zero_of_le (not_lt.1 hmore), List.take_zero]
      simp [pushAll]

section Assign

variable {hashes : Hashes} {sch : Scheme} {txTo : CMutableTransaction} {nIn : ℕ}
  {script : CScript} {keys : List Bytes}

/-- No signature is good for two of the keys. -/
def OneKeyEach (hashes : Hashes) (sch : Scheme) (txTo : CMutableTransaction) (nIn : ℕ)
    (script : CScript) (keys : List Bytes) : Prop :=
  ∀ sig, ∀ key ∈ keys, ∀ key' ∈ keys, checkSig hashes sch txTo nIn sig key script = true →
    checkSig hashes sch txTo nIn sig key' script = true → key = key'

theorem assign_eq_firstFit : assign hashes sch txTo nIn script keys =
    FirstFit.assign (fun sig key => checkSig hashes sch txTo nIn sig key script) keys := by
  funext sigs sig
  unfold assign FirstFit.assign
  dsimp only
  cases keys.find? fun key =>
      !sigs.count key && checkSig hashes sch txTo nIn sig key script with
  | none => rfl
  | some key => rfl

/-- The signatures that are written. -/
def chosenSigs (hashes : Hashes) (sch : Scheme) (txTo : CMutableTransaction) (nIn : ℕ)
    (script : CScript) (keys sigs1 sigs2 : List Bytes) : List Bytes :=
  keys.filterMap fun key =>
    (allSigs sigs1 sigs2).find? fun sig => checkSig hashes sch txTo nIn sig key script

/-- The signatures of the first keys that have any, filled up with empty placeholders. -/
def filledUp (m : ℕ) (sigs : List Bytes) : List Bytes :=
  sigs.take m ++ List.replicate (m - (sigs.take m).length) []

theorem combineMultisig_eq {m : ℕ} {last : Bytes}
    (hone : OneKeyEach hashes sch txTo nIn script keys) (hm : m ≤ 16) (sigs1 sigs2 : List Bytes) :
    combineMultisig hashes sch txTo nIn script ([UInt8.ofNat m] :: (keys ++ [last])) sigs1 sigs2 =
      pushAll ([] :: filledUp m (chosenSigs hashes sch txTo nIn script keys sigs1 sigs2)) := by
  have hkeys : (([UInt8.ofNat m] :: (keys ++ [last])).drop 1).dropLast = keys := by
    rw [List.drop_one, List.tail_cons, List.dropLast_concat]
  have hfirst : firstByte ([UInt8.ofNat m] :: (keys ++ [last])).head? = m := toNat_of_le_sixteen hm
  have hchosen : keys.filterMap ((allSigs sigs1 sigs2).foldl
      (assign hashes sch txTo nIn script keys) .empty).find =
        chosenSigs hashes sch txTo nIn script keys sigs1 sigs2 := by
    rw [assign_eq_firstFit]
    exact FirstFit.filterMap_foldl_assign hone (allSigs sigs1 sigs2)
  unfold combineMultisig
  rw [hkeys, hfirst]
  dsimp only
  rw [writeSigs_eq, hchosen, Nat.sub_zero, Nat.zero_add, ← pushAll_replicate_nil, List.append_assoc,
    ← pushAll_append]
  rfl

/-- The keys with a signature among the values. -/
def signedKeys (hashes : Hashes) (sch : Scheme) (txTo : CMutableTransaction) (nIn : ℕ)
    (script : CScript) (keys values : List Bytes) : List Bytes :=
  keys.filter fun key => values.any fun sig => checkSig hashes sch txTo nIn sig key script

theorem checkSig_nil (key : Bytes) : checkSig hashes sch txTo nIn [] key script = false := by
  unfold checkSig
  split
  · rfl
  · rfl

theorem chosenSigs_signed (keys sigs1 sigs2 : List Bytes) :
    List.Forall₂ (fun sig key => sig ∈ sigs1 ++ sigs2 ∧
        checkSig hashes sch txTo nIn sig key script = true)
      (chosenSigs hashes sch txTo nIn script keys sigs1 sigs2)
      (signedKeys hashes sch txTo nIn script keys (sigs1 ++ sigs2)) := by
  have hserved : signedKeys hashes sch txTo nIn script keys (sigs1 ++ sigs2) =
      FirstFit.served (fun sig key => checkSig hashes sch txTo nIn sig key script) keys
        (allSigs sigs1 sigs2) := by
    refine FirstFit.served_congr fun sig key _ hgood => ?_
    have hne : sig ≠ [] := by
      rintro rfl
      rw [checkSig_nil] at hgood
      cases hgood
    rw [mem_allSigs, List.mem_append, and_iff_left hne]
  rw [hserved]
  refine (FirstFit.chosen_served _ _ _).imp fun sig key h => ⟨?_, h.2⟩
  exact List.mem_append.2 (mem_allSigs.1 h.1).1

end Assign

/-! Running the result. -/

/-- An ideal scheme, as far as the keys of a script go: a signature is good for one of them only,
the empty one for none, and no signature with its hash type is one of the keys. -/
structure Scheme.IdealFor (sch : Scheme) (keys : List Bytes) : Prop where
  oneKey : ∀ hash vchSig, ∀ key ∈ keys, ∀ key' ∈ keys,
    Signing.verify sch (pubKeyOf key) hash vchSig = true →
      Signing.verify sch (pubKeyOf key') hash vchSig = true → key = key'
  verify_nil : ∀ hash, ∀ key ∈ keys, Signing.verify sch (pubKeyOf key) hash [] = false
  ne_key : ∀ hash vchSig, ∀ key ∈ keys, Signing.verify sch (pubKeyOf key) hash vchSig = true →
    ∀ back, vchSig ++ [back] ∉ keys

/-- What is checked passes the tests of the flags on how it is written. -/
structure Encoded (flags : BitVec 32) (script : CScript) (keys sigs : List Bytes) : Prop where
  minimal : hasFlag flags scriptVerifyMinimalData = true → pushesMinimally script = true
  keys : ∀ key ∈ keys, checkPubKeyEncoding key flags = .ok ()
  sigs : ∀ sig ∈ sigs, checkSignatureEncoding sig flags = .ok ()

/-- There is nothing to pass where no flag looks at it. -/
theorem encoded_of_noEncodingFlags {flags : BitVec 32} (h : NoEncodingFlags flags)
    (script : CScript) (keys sigs : List Bytes) : Encoded flags script keys sigs where
  minimal hflag := absurd (h.minimalData.symm.trans hflag) Bool.false_ne_true
  keys key _ := h.checkPubKeyEncoding key
  sigs sig _ := h.checkSignatureEncoding sig

/-- The context of a check for an input. -/
def inputContext (hashes : Hashes) (sch : Scheme) (txTo : CMutableTransaction) (nIn : ℕ)
    (flags : BitVec 32) : Context :=
  ⟨hashes, checkSig hashes sch txTo nIn, flags⟩

/-- The values that are signatures of one of the keys. -/
def goodSigs (hashes : Hashes) (sch : Scheme) (txTo : CMutableTransaction) (nIn : ℕ)
    (script : CScript) (keys values : List Bytes) : List Bytes :=
  values.filter fun sig => keys.any fun key => checkSig hashes sch txTo nIn sig key script

section Verify

variable {hashes : Hashes} {sch : Scheme} {txTo : CMutableTransaction} {nIn : ℕ}
  {script : CScript} {keys : List Bytes} {flags : BitVec 32}

theorem checkSig_good {sig key : Bytes} (h : checkSig hashes sch txTo nIn sig key script = true) :
    ∃ vchSig back, sig = vchSig ++ [back] ∧ verify sch (pubKeyOf key)
      (getSignatureHash hashes script txTo nIn (BitVec.ofNat 32 back.toNat)) vchSig = true := by
  unfold checkSig at h
  split at h
  · cases h
  · split at h
    · cases h
    · next back hback =>
      exact ⟨sig.dropLast, back, (List.dropLast_append_getLast? back hback).symm, h⟩

theorem Scheme.IdealFor.oneKeyEach (h : sch.IdealFor keys) :
    OneKeyEach hashes sch txTo nIn script keys := by
  intro sig key hkey key' hkey' hgood hgood'
  obtain ⟨vchSig, back, rfl, hverify⟩ := checkSig_good hgood
  obtain ⟨vchSig', back', heq, hverify'⟩ := checkSig_good hgood'
  obtain ⟨rfl, hback⟩ := List.append_inj' heq rfl
  obtain rfl : back = back' := List.singleton_inj.1 hback
  exact h.oneKey _ _ key hkey key' hkey' hverify hverify'

theorem Scheme.IdealFor.two_le_length (h : sch.IdealFor keys) {sig key : Bytes} (hkey : key ∈ keys)
    (hgood : checkSig hashes sch txTo nIn sig key script = true) : 2 ≤ sig.length := by
  obtain ⟨vchSig, back, rfl, hverify⟩ := checkSig_good hgood
  have hne : vchSig ≠ [] := by
    rintro rfl
    rw [h.verify_nil _ key hkey] at hverify
    cases hverify
  have hpos := List.length_pos_iff.2 hne
  rw [List.length_append, List.length_singleton]
  omega

/-- A signature is not dropped from the script that it signs. -/
theorem Scheme.IdealFor.kept (h : sch.IdealFor keys) {m : ℕ}
    (hscript : MultisigScript m keys script) {sig key : Bytes}
    (hsize : sig.length ≤ maxScriptElementSize) (hkey : key ∈ keys)
    (hgood : checkSig hashes sch txTo nIn sig key script = true) :
    dropSignature script sig = script := by
  have hmax : maxScriptElementSize = 520 := rfl
  refine dropSignature_eq_self hscript.length_lt fun hmem => ?_
  rcases hscript.mem_pushedData hmem with hpushed | hnil
  · obtain ⟨vchSig, back, rfl, hverify⟩ := checkSig_good hgood
    exact h.ne_key _ vchSig key hkey hverify back hpushed
  · have htwo := h.two_le_length hkey hgood
    rw [hnil] at htwo
    exact absurd htwo (by decide)

theorem length_filledUp (m : ℕ) (sigs : List Bytes) : (filledUp m sigs).length = m := by
  have hle := List.length_take_le m sigs
  rw [filledUp, List.length_append, List.length_replicate]
  omega

theorem mem_filledUp {m : ℕ} {sigs : List Bytes} {sig : Bytes} (h : sig ∈ filledUp m sigs) :
    sig ∈ sigs ∨ sig = [] :=
  (List.mem_append.1 h).imp List.mem_of_mem_take List.eq_of_mem_replicate

/-- The verdict on what is written counts the keys that have signatures. -/
theorem verdict_filledUp {m : ℕ} {sigs1 sigs2 : List Bytes} (hideal : sch.IdealFor keys)
    (hscript : MultisigScript m keys script)
    (henc : ∀ vchSig ∈ filledUp m (chosenSigs hashes sch txTo nIn script keys sigs1 sigs2),
      ∀ vchPubKey ∈ keys, checkEncodings (inputContext hashes sch txTo nIn flags) vchSig vchPubKey =
        .ok ())
    (hsizes : ∀ b ∈ sigs1 ++ sigs2, b.length ≤ maxScriptElementSize) :
    (multisigOperands (filledUp m (chosenSigs hashes sch txTo nIn script keys sigs1 sigs2))
        keys).verdict (inputContext hashes sch txTo nIn flags) script = true ↔
      m ≤ (signedKeys hashes sch txTo nIn script keys (sigs1 ++ sigs2)).length := by
  have hchosen : List.Forall₂ (fun sig key => sig ∈ sigs1 ++ sigs2 ∧
      checkSig hashes sch txTo nIn sig key script = true)
        (chosenSigs hashes sch txTo nIn script keys sigs1 sigs2) _ :=
    chosenSigs_signed keys sigs1 sigs2
  generalize chosenSigs hashes sch txTo nIn script keys sigs1 sigs2 = chosen at henc hchosen ⊢
  have hsub : (signedKeys hashes sch txTo nIn script keys (sigs1 ++ sigs2)).Sublist keys :=
    List.filter_sublist
  generalize signedKeys hashes sch txTo nIn script keys (sigs1 ++ sigs2) = signed at hchosen hsub ⊢
  have hlen := hchosen.length_eq
  by_cases hmany : m ≤ signed.length
  · have hfull : filledUp m chosen = chosen.take m := by
      rw [filledUp, List.length_take, Nat.min_eq_left (by omega), Nat.sub_self, List.replicate_zero,
        List.append_nil]
    have htake := List.forall₂_take m hchosen
    have hall : ∀ sig ∈ chosen.take m, dropSignature script sig = script := by
      intro sig hsig
      obtain ⟨i, hi, rfl⟩ := List.mem_iff_getElem.1 hsig
      have hi' : i < (signed.take m).length := htake.length_eq ▸ hi
      obtain ⟨hmem, hgood⟩ := htake.get hi hi'
      exact hideal.kept hscript (hsizes _ hmem)
        (hsub.subset (List.mem_of_mem_take (List.getElem_mem hi'))) hgood
    refine iff_of_true (SignsAll.verdict ⟨henc, hfull ▸ hall, hfull ▸ ?_⟩) hmany
    refine Matching.reverse (List.sublistForall₂_iff.2 ⟨signed.take m, ?_, ?_⟩)
    · exact htake.imp fun _ _ h => h.2
    · exact (List.take_sublist m signed).trans hsub
  · refine iff_of_false (fun hverdict => ?_) hmany
    have hplaceholder : [] ∈ filledUp m chosen := by
      refine List.mem_append.2 (Or.inr (List.mem_replicate.2 ⟨?_, rfl⟩))
      have hle := List.length_take_le' m chosen
      omega
    obtain ⟨l, hmatch, -⟩ := List.sublistForall₂_iff.1 (Matching.greedy_iff.1 hverdict)
    have hne : ∀ sig key code,
        (inputContext hashes sch txTo nIn flags).checkSig sig key code = true → sig ≠ [] := by
      rintro sig key code hgood rfl
      change checkSig hashes sch txTo nIn [] key code = true at hgood
      rw [checkSig_nil] at hgood
      cases hgood
    have hfilled := hmatch.imp fun sig key hgood => And.intro (hne sig key _ hgood) hgood
    exact ((List.forall₂_and_left _ _).1 hfilled).1 [] (List.mem_reverse.2 hplaceholder) rfl

theorem checkSignatureEncoding_nil (flags : BitVec 32) :
    checkSignatureEncoding [] flags = .ok () := rfl

/-- What is written is a signature among the values, for one of the keys, or a placeholder. -/
theorem good_of_mem_filledUp {m : ℕ} {sigs1 sigs2 : List Bytes} {b : Bytes}
    (hb : b ∈ filledUp m (chosenSigs hashes sch txTo nIn script keys sigs1 sigs2)) :
    b = [] ∨ b ∈ sigs1 ++ sigs2 ∧
      ∃ key ∈ keys, checkSig hashes sch txTo nIn b key script = true := by
  rcases mem_filledUp hb with hmem | hnil
  · obtain ⟨hsig, hgood⟩ := FirstFit.mem_of_mem_chosen hmem
    exact Or.inr ⟨List.mem_append.2 (mem_allSigs.1 hsig).1, hgood⟩
  · exact Or.inl hnil

/-- The script on the stack that the written signatures make. -/
theorem evalScript_filledUp {m : ℕ} {sigs1 sigs2 : List Bytes} (hideal : sch.IdealFor keys)
    (hscript : MultisigScript m keys script)
    (hencoded : Encoded flags script keys
      (goodSigs hashes sch txTo nIn script keys (sigs1 ++ sigs2)))
    (hsizes : ∀ b ∈ sigs1 ++ sigs2, b.length ≤ maxScriptElementSize) :
    (evalScript (inputContext hashes sch txTo nIn flags)
        ((filledUp m (chosenSigs hashes sch txTo nIn script keys sigs1 sigs2)).reverse ++ [[]])
        script).2 =
      .ok [ofBool (decide (m ≤ (signedKeys hashes sch txTo nIn script keys
        (sigs1 ++ sigs2)).length))] := by
  have henc : ∀ vchSig ∈ filledUp m (chosenSigs hashes sch txTo nIn script keys sigs1 sigs2),
      ∀ vchPubKey ∈ keys,
        checkEncodings (inputContext hashes sch txTo nIn flags) vchSig vchPubKey = .ok () := by
    intro vchSig hsig vchPubKey hkey
    have hok : checkSignatureEncoding vchSig flags = .ok () := by
      rcases good_of_mem_filledUp hsig with rfl | ⟨hmem, key, hkey, hgood⟩
      · exact checkSignatureEncoding_nil flags
      · exact hencoded.sigs _ (List.mem_filter.2 ⟨hmem, List.any_eq_true.2 ⟨key, hkey, hgood⟩⟩)
    unfold checkEncodings inputContext
    dsimp only
    rw [hok]
    dsimp only
    rw [hencoded.keys vchPubKey hkey]
  have hlen := length_filledUp m (chosenSigs hashes sch txTo nIn script keys sigs1 sigs2)
  have hcounted : MultisigScript (filledUp m
      (chosenSigs hashes sch txTo nIn script keys sigs1 sigs2)).length keys script :=
    hlen.symm ▸ hscript
  have hminimal : (inputContext hashes sch txTo nIn flags).fRequireMinimal = true →
      pushesMinimally script = true := hencoded.minimal
  have hverdict := verdict_filledUp hideal hscript henc hsizes
  rw [hcounted.evalScript [] hminimal henc (by decide),
    Bool.eq_iff_iff.2 (hverdict.trans decide_eq_true_iff.symm)]

theorem checkTop_ofBool {f : Bool} {stack : List Bytes} :
    checkTop (ofBool f :: stack) = .ok () ↔ f = true := by
  cases f with
  | false => exact iff_of_false nofun Bool.false_ne_true
  | true => exact iff_of_true rfl rfl

theorem size_of_mem_filledUp {m : ℕ} {sigs1 sigs2 : List Bytes} (hideal : sch.IdealFor keys)
    (hsizes : ∀ b ∈ sigs1 ++ sigs2, b.length ≤ maxScriptElementSize) {b : Bytes}
    (hb : b ∈ filledUp m (chosenSigs hashes sch txTo nIn script keys sigs1 sigs2)) :
    b.length ≠ 1 ∧ b.length ≤ maxScriptElementSize := by
  rcases good_of_mem_filledUp hb with rfl | ⟨hmem, key, hkey, hgood⟩
  · exact ⟨by decide, by decide⟩
  · have htwo := hideal.two_le_length hkey hgood
    exact ⟨by omega, hsizes b hmem⟩

/-- The pushes of a few values, with one push more or none. -/
theorem evalScript_pushAll (ctx : Context) {items last : List Bytes}
    (hitems : ∀ b ∈ items, b.length ≠ 1 ∧ b.length ≤ maxScriptElementSize)
    (hlast : ∀ b ∈ last, b.length ≠ 1 ∧ b.length ≤ maxScriptElementSize)
    (hfew : items.length ≤ 16) (hone : last.length ≤ 1) :
    (evalScript ctx [] (pushAll (([] :: items) ++ last))).2 =
      .ok (last.reverse ++ (items.reverse ++ [[]])) ∧
    Script.isPushOnly (pushAll (([] :: items) ++ last)) = true := by
  have hmax : maxScriptElementSize = 520 := rfl
  have hbs : ∀ b ∈ ([] :: items) ++ last, b.length ≠ 1 ∧ b.length ≤ maxScriptElementSize := by
    intro b hb
    rcases List.mem_append.1 hb with hb | hb
    · rcases List.mem_cons.1 hb with rfl | hb
      · exact ⟨by decide, by decide⟩
      · exact hitems b hb
    · exact hlast b hb
  have hbytes := length_flatMap_pushData_le (show 520 ≤ 0xffff by decide) fun b hb => (hbs b hb).2
  rw [List.length_append, List.length_cons] at hbytes
  have hrun := evalScript_pushes ctx [] hbs
    (by rw [List.length_append, List.length_cons, List.length_nil]; omega) (by omega)
  rw [List.append_nil, List.reverse_append, List.reverse_cons] at hrun
  exact ⟨hrun, isPushOnly_pushes (lt_of_le_of_lt hbytes (by omega))⟩

end Verify

/-- What the combination of scripts with these values has to be: signatures of the first keys that
have any, then placeholders, then the last push if there is one; and it passes exactly when there
are enough such keys. -/
structure Combines (hashes : Hashes) (sch : Scheme) (txTo : CMutableTransaction) (nIn : ℕ)
    (flags : BitVec 32) (script scriptPubKey : CScript) (values last : List Bytes)
    (result : CScript) : Prop where
  signatures : ∃ sigs, List.Forall₂
      (fun sig key => sig ∈ values ∧ checkSig hashes sch txTo nIn sig key script = true) sigs
      ((signedKeys hashes sch txTo nIn script (pubKeysOf (solver script [])) values).take
        (nRequired (solver script []))) ∧
    result = pushAll (([] :: (sigs ++ List.replicate
      (nRequired (solver script []) - sigs.length) [])) ++ last)
  passes : Encoded flags script (pubKeysOf (solver script []))
      (goodSigs hashes sch txTo nIn script (pubKeysOf (solver script [])) values) →
    ((verifyScript (inputContext hashes sch txTo nIn flags) result scriptPubKey).outcome = .ok () ↔
      nRequired (solver script []) ≤
        (signedKeys hashes sch txTo nIn script (pubKeysOf (solver script [])) values).length)

section Main

variable {hashes : Hashes} {sch : Scheme} {txTo : CMutableTransaction} {nIn : ℕ}
  {script scriptPubKey : CScript} {keys : List Bytes} {flags : BitVec 32} {m : ℕ}
  {sigs1 sigs2 : List Bytes}

theorem length_le_of_evalScript {ctx : Context} {stack : List Bytes}
    (h : (evalScript ctx [] script).2 = .ok stack) {b : Bytes} (hb : b ∈ stack) :
    b.length ≤ maxScriptElementSize := by
  unfold evalScript at h
  split at h
  · cases h
  · obtain ⟨s, hreach, ⟨-, hok⟩ | ⟨stop, -, -, herror⟩⟩ :=
      evalLoop_reaches ctx (Nat.le_refl (State.start [] script).pc.length)
    · change (evalLoop ctx script.length (State.start [] script)).2 = .ok s at hok
      generalize evalLoop ctx script.length (State.start [] script) = run at h hok
      obtain ⟨calls, r⟩ := run
      subst hok
      change (if s.vfExec ≠ [] then _ else _) = _ at h
      split at h
      · cases h
      · cases Except.ok.inj h
        cases hreach.within b (List.mem_append_left _ hb) with
        | inl hold => exact absurd hold List.not_mem_nil
        | inr hlen => exact hlen
    · change (evalLoop ctx script.length (State.start [] script)).2 = .error stop at herror
      generalize evalLoop ctx script.length (State.start [] script) = run at h herror
      obtain ⟨calls, r⟩ := run
      subst herror
      cases h

theorem length_le_of_mem_stackOf {leftover : CScript → List Bytes}
    (hleft : ∀ s, ∀ b ∈ leftover s, b.length ≤ maxScriptElementSize) {scriptSig : CScript}
    {b : Bytes} (hb : b ∈ stackOf hashes leftover scriptSig) :
    b.length ≤ maxScriptElementSize := by
  unfold stackOf at hb
  split at hb
  · next stack hstack => exact length_le_of_evalScript hstack hb
  · exact hleft scriptSig b hb

/-- The keys and their number, read off the solutions. -/
theorem solutions_of_multisig (hok : (solver script []).ok = true)
    (htype : (solver script []).whichType = .multisig) :
    MultisigScript (nRequired (solver script [])) (pubKeysOf (solver script [])) script ∧
      ∃ last, (solver script []).vSolutions = [UInt8.ofNat (nRequired (solver script []))] ::
        (pubKeysOf (solver script []) ++ [last]) := by
  obtain ⟨m, keys, hscript, hsolutions⟩ := multisigScript_of_solved htype hok
  have hle := hscript.le_length
  have hmax := hscript.length_le
  have hrequired : nRequired (solver script []) = m := by
    unfold nRequired
    rw [htype, hsolutions]
    exact toNat_of_le_sixteen (by omega)
  have hkeys : pubKeysOf (solver script []) = keys := by
    unfold pubKeysOf
    rw [htype, hsolutions]
    dsimp only
    rw [List.drop_one, List.tail_cons, List.dropLast_concat]
  rw [hrequired, hkeys]
  exact ⟨hscript, _, hsolutions⟩

theorem combineStacks_multisig (htype : (solver script []).whichType = .multisig)
    (sigs1 sigs2 : List Bytes) : combineStacks hashes sch txTo nIn script sigs1 sigs2 =
      combineMultisig hashes sch txTo nIn script (solver script []).vSolutions sigs1 sigs2 := by
  unfold combineStacks
  rw [htype]

theorem combineMultisig_comm (vSolutions sigs1 sigs2 : List Bytes) :
    combineMultisig hashes sch txTo nIn script vSolutions sigs1 sigs2 =
      combineMultisig hashes sch txTo nIn script vSolutions sigs2 sigs1 := by
  unfold combineMultisig
  rw [allSigs_comm]

theorem solver_scriptHash (hpay : Script.isPayToScriptHash scriptPubKey = true) :
    (solver scriptPubKey []).whichType = .scripthash := by
  unfold solver
  rw [if_pos hpay]

theorem combineStacks_scriptHash (hpay : Script.isPayToScriptHash scriptPubKey = true)
    {spk spk' : Bytes} (hne : spk ≠ []) (hne' : spk' ≠ []) (sigs1 sigs2 : List Bytes) :
    combineStacks hashes sch txTo nIn scriptPubKey (spk :: sigs1) (spk' :: sigs2) =
      combineStacks hashes sch txTo nIn spk sigs1 sigs2 ++ ScriptNum.pushData spk := by
  rw [combineStacks, solver_scriptHash hpay]
  dsimp only
  rw [if_neg hne, if_neg hne']

/-- The stack is empty, or an empty value is on top. -/
def Blank (stack : List Bytes) : Prop := ∀ top ∈ stack.head?, top = []

theorem combineStacks_blank (hpay : Script.isPayToScriptHash scriptPubKey = true)
    (hblank : Blank sigs1) (sigs2 : List Bytes) :
    combineStacks hashes sch txTo nIn scriptPubKey sigs1 sigs2 = pushAll sigs2.reverse := by
  cases sigs1 with
  | nil =>
    unfold combineStacks
    rw [solver_scriptHash hpay]
  | cons top sigs1 =>
    unfold combineStacks
    rw [solver_scriptHash hpay]
    exact if_pos (hblank top rfl)

theorem combineStacks_blank_right (hpay : Script.isPayToScriptHash scriptPubKey = true)
    (hfirst : ¬Blank sigs1) (hblank : Blank sigs2) :
    combineStacks hashes sch txTo nIn scriptPubKey sigs1 sigs2 = pushAll sigs1.reverse := by
  cases sigs1 with
  | nil => exact absurd (fun _ htop => nomatch htop) hfirst
  | cons top sigs1 =>
    have hne : top ≠ [] := by
      rintro rfl
      exact hfirst fun _ htop => (Option.some.inj htop).symm
    unfold combineStacks
    rw [solver_scriptHash hpay]
    dsimp only
    rw [if_neg hne]
    cases sigs2 with
    | nil => rfl
    | cons back sigs2 => exact if_pos (hblank back rfl)

theorem combineStacks_eq (hok : (solver script []).ok = true)
    (htype : (solver script []).whichType = .multisig)
    (hideal : sch.IdealFor (pubKeysOf (solver script []))) (sigs1 sigs2 : List Bytes) :
    combineStacks hashes sch txTo nIn script sigs1 sigs2 =
      pushAll ([] :: filledUp (nRequired (solver script [])) (chosenSigs hashes sch txTo nIn script
        (pubKeysOf (solver script [])) sigs1 sigs2)) := by
  obtain ⟨hscript, last, hsolutions⟩ := solutions_of_multisig hok htype
  have hle := hscript.le_length
  have hmax := hscript.length_le
  rw [combineStacks_multisig htype, hsolutions]
  exact combineMultisig_eq hideal.oneKeyEach (by omega) sigs1 sigs2

theorem not_scriptHash (htype : (solver script []).whichType = .multisig) :
    Script.isPayToScriptHash script = false := by
  by_contra hpay
  rw [Bool.not_eq_false] at hpay
  rw [solver_scriptHash hpay] at htype
  cases htype

theorem combines_bare (hok : (solver script []).ok = true)
    (htype : (solver script []).whichType = .multisig)
    (hideal : sch.IdealFor (pubKeysOf (solver script [])))
    (hsizes : ∀ b ∈ sigs1 ++ sigs2, b.length ≤ maxScriptElementSize) :
    Combines hashes sch txTo nIn flags script script (sigs1 ++ sigs2) []
      (combineStacks hashes sch txTo nIn script sigs1 sigs2) := by
  obtain ⟨hscript, -, -⟩ := solutions_of_multisig hok htype
  have hle := hscript.le_length
  have hmax := hscript.length_le
  rw [combineStacks_eq hok htype hideal]
  refine ⟨⟨_, List.forall₂_take _ (chosenSigs_signed _ _ _), by rw [List.append_nil]; rfl⟩,
    fun hencoded => ?_⟩
  have hitems : ∀ b ∈ filledUp (nRequired (solver script [])) (chosenSigs hashes sch txTo nIn script
      (pubKeysOf (solver script [])) sigs1 sigs2), b.length ≠ 1 ∧ b.length ≤ maxScriptElementSize :=
    fun b => size_of_mem_filledUp hideal hsizes
  obtain ⟨hsig, hpush⟩ := evalScript_pushAll (inputContext hashes sch txTo nIn flags) hitems
    (fun _ hb => absurd hb List.not_mem_nil) (by rw [length_filledUp]; omega) (Nat.zero_le 1)
  rw [List.append_nil] at hsig hpush
  have hrun := evalScript_filledUp hideal hscript hencoded hsizes
  rw [outcome_bare hpush hsig hrun (not_scriptHash htype), checkTop_ofBool, decide_eq_true_iff]

theorem combines_scriptHash (hok : (solver script []).ok = true)
    (htype : (solver script []).whichType = .multisig)
    (hideal : sch.IdealFor (pubKeysOf (solver script [])))
    (hflag : hasFlag flags scriptVerifyP2SH = true)
    (hpay : Script.isPayToScriptHash scriptPubKey = true)
    (hhash : hashes.hash160 script = (scriptPubKey.drop 2).take 20)
    (hlen : script.length ≤ maxScriptElementSize)
    (hsizes : ∀ b ∈ sigs1 ++ sigs2, b.length ≤ maxScriptElementSize) :
    Combines hashes sch txTo nIn flags script scriptPubKey (sigs1 ++ sigs2) [script]
      (combineStacks hashes sch txTo nIn scriptPubKey (script :: sigs1) (script :: sigs2)) := by
  obtain ⟨hscript, -, -⟩ := solutions_of_multisig hok htype
  have hle := hscript.le_length
  have hmax := hscript.length_le
  have htwo := hscript.two_le_length
  have hne : script ≠ [] := List.length_pos_iff.1 (by omega)
  obtain ⟨hfrom, htwenty⟩ := eq_payToScriptHash hpay
  have hlast : pushAll [script] = ScriptNum.pushData script := List.flatMap_singleton _ _
  rw [combineStacks_scriptHash hpay hne hne, combineStacks_eq hok htype hideal, ← hlast,
    ← pushAll_append]
  refine ⟨⟨_, List.forall₂_take _ (chosenSigs_signed _ _ _), rfl⟩, fun hencoded => ?_⟩
  have hitems : ∀ b ∈ filledUp (nRequired (solver script [])) (chosenSigs hashes sch txTo nIn script
      (pubKeysOf (solver script [])) sigs1 sigs2), b.length ≠ 1 ∧ b.length ≤ maxScriptElementSize :=
    fun b => size_of_mem_filledUp hideal hsizes
  obtain ⟨hsig, hpush⟩ := evalScript_pushAll (inputContext hashes sch txTo nIn flags) hitems
    (fun b hb => List.mem_singleton.1 hb ▸ ⟨by omega, hlen⟩) (by rw [length_filledUp]; omega)
    (Nat.le_refl 1)
  have hrun := evalScript_filledUp hideal hscript hencoded hsizes
  have hpub := evalScript_scriptHash (inputContext hashes sch txTo nIn flags)
    ((filledUp (nRequired (solver script [])) (chosenSigs hashes sch txTo nIn script
      (pubKeysOf (solver script [])) sigs1 sigs2)).reverse ++ [[]]) htwenty hhash (by
        rw [List.length_append, List.length_reverse, length_filledUp, List.length_singleton]
        omega)
  rw [← hfrom] at hpub
  rw [outcome_scriptHash hflag hpush hsig hpub hpay hrun, checkTop_ofBool, decide_eq_true_iff]

end Main

/-- With an ideal scheme both orders give one script, which has a signature of each of the first
keys that have any in one of the scripts. Where a script is hashed that holds if the run of each
ends with that script; if one leaves nothing there, the other is written as it stands. -/
theorem combineSignatures_loses_none (hashes : Hashes) (sch : Scheme) (txTo : CMutableTransaction)
    (nIn : ℕ) (leftover : CScript → List Bytes)
    (hleft : ∀ s, ∀ b ∈ leftover s, b.length ≤ maxScriptElementSize) (script : CScript)
    (hok : (solver script []).ok = true) (htype : (solver script []).whichType = .multisig)
    (hideal : sch.IdealFor (pubKeysOf (solver script []))) (flags : BitVec 32)
    (hflag : hasFlag flags scriptVerifyP2SH = true) (scriptSig1 scriptSig2 : CScript) :
    (combineSignatures hashes sch txTo nIn leftover script scriptSig1 scriptSig2 =
        combineSignatures hashes sch txTo nIn leftover script scriptSig2 scriptSig1 ∧
      Combines hashes sch txTo nIn flags script script
        (stackOf hashes leftover scriptSig1 ++ stackOf hashes leftover scriptSig2) []
        (combineSignatures hashes sch txTo nIn leftover script scriptSig1 scriptSig2)) ∧
    ∀ scriptPubKey, Script.isPayToScriptHash scriptPubKey = true →
      hashes.hash160 script = (scriptPubKey.drop 2).take 20 →
      (∀ sigs1 sigs2, stackOf hashes leftover scriptSig1 = script :: sigs1 →
        stackOf hashes leftover scriptSig2 = script :: sigs2 →
        combineSignatures hashes sch txTo nIn leftover scriptPubKey scriptSig1 scriptSig2 =
          combineSignatures hashes sch txTo nIn leftover scriptPubKey scriptSig2 scriptSig1 ∧
        Combines hashes sch txTo nIn flags script scriptPubKey (sigs1 ++ sigs2) [script]
          (combineSignatures hashes sch txTo nIn leftover scriptPubKey scriptSig1 scriptSig2)) ∧
      (Blank (stackOf hashes leftover scriptSig1) →
        combineSignatures hashes sch txTo nIn leftover scriptPubKey scriptSig1 scriptSig2 =
          pushAll (stackOf hashes leftover scriptSig2).reverse) ∧
      (¬Blank (stackOf hashes leftover scriptSig1) → Blank (stackOf hashes leftover scriptSig2) →
        combineSignatures hashes sch txTo nIn leftover scriptPubKey scriptSig1 scriptSig2 =
          pushAll (stackOf hashes leftover scriptSig1).reverse) := by
  have hshort : ∀ s, ∀ b ∈ stackOf hashes leftover s, b.length ≤ maxScriptElementSize :=
    fun s b => length_le_of_mem_stackOf hleft
  unfold combineSignatures
  refine ⟨⟨?_, combines_bare hok htype hideal fun b hb => ?_⟩, fun scriptPubKey hpay hhash =>
    ⟨fun sigs1 sigs2 hstack1 hstack2 => ?_, fun hblank => combineStacks_blank hpay hblank _,
      fun hfirst hblank => combineStacks_blank_right hpay hfirst hblank⟩⟩
  · rw [combineStacks_multisig htype, combineStacks_multisig htype, combineMultisig_comm]
  · rcases List.mem_append.1 hb with hb | hb
    · exact hshort scriptSig1 b hb
    · exact hshort scriptSig2 b hb
  · have hshort1 := hshort scriptSig1
    have hshort2 := hshort scriptSig2
    rw [hstack1] at hshort1 ⊢
    rw [hstack2] at hshort2 ⊢
    obtain ⟨hscript, -, -⟩ := solutions_of_multisig hok htype
    have htwo := hscript.two_le_length
    have hne : script ≠ [] := List.length_pos_iff.1 (by omega)
    refine ⟨?_, combines_scriptHash hok htype hideal hflag hpay hhash
      (hshort1 script List.mem_cons_self) fun b hb => ?_⟩
    · rw [combineStacks_scriptHash hpay hne hne, combineStacks_scriptHash hpay hne hne,
        combineStacks_multisig htype, combineStacks_multisig htype, combineMultisig_comm]
    · rcases List.mem_append.1 hb with hb | hb
      · exact hshort1 b (List.mem_cons_of_mem _ hb)
      · exact hshort2 b (List.mem_cons_of_mem _ hb)

/-! A scheme in which the signature of a key is the first byte of the key. -/

section Samples

def firstByteScheme : Scheme :=
  { sampleScheme with verify := fun pubkey _ vchSig => vchSig == pubkey.vch.take 1 }

/-- A public key that begins with this byte. -/
def keyOf (header : UInt8) : Bytes := header :: List.replicate 32 0

/-- A script for two signatures of two keys, and the script that pays to its hash. -/
def twoOfTwo : CScript := payToMultisig 2 [keyOf 2, keyOf 3]

def payToTwoOfTwo : CScript := payToScriptHash (sampleHashes.hash160 twoOfTwo)

def nothingLeft (_ : CScript) : List Bytes := []

theorem firstByteScheme_idealFor : firstByteScheme.IdealFor (pubKeysOf (solver twoOfTwo [])) := by
  have hkeys : pubKeysOf (solver twoOfTwo []) = [keyOf 2, keyOf 3] := by decide
  rw [hkeys]
  have hverify : ∀ hash vchSig, ∀ key ∈ [keyOf 2, keyOf 3],
      verify firstByteScheme (pubKeyOf key) hash vchSig = (vchSig == key.take 1) := by
    intro hash vchSig key hkey
    rcases List.mem_pair.1 hkey with rfl | rfl
    · rfl
    · rfl
  refine ⟨fun hash vchSig key hkey key' hkey' hgood hgood' => ?_, fun hash key hkey => ?_,
    fun hash vchSig key hkey hgood back hmem => ?_⟩
  · rw [hverify hash vchSig key hkey, beq_iff_eq] at hgood
    rw [hverify hash vchSig key' hkey', beq_iff_eq, hgood] at hgood'
    rcases List.mem_pair.1 hkey with rfl | rfl <;> rcases List.mem_pair.1 hkey' with rfl | rfl
    · rfl
    · exact absurd hgood' (by decide)
    · exact absurd hgood' (by decide)
    · rfl
  · rw [hverify hash [] key hkey]
    rcases List.mem_pair.1 hkey with rfl | rfl
    · rfl
    · rfl
  · rw [hverify hash vchSig key hkey, beq_iff_eq] at hgood
    have hlen : ∀ k ∈ [keyOf 2, keyOf 3], k.length = 33 := by decide
    have htwo := hlen _ hmem
    rw [hgood, List.length_append, List.length_take, hlen key hkey, List.length_singleton] at htwo
    exact absurd htwo (by decide)

theorem noEncodingFlags_p2sh : NoEncodingFlags scriptVerifyP2SH := ⟨rfl, rfl, rfl, rfl, rfl⟩

/-- One of the two has signed. -/
def signedBy (header : UInt8) : CScript := pushAll [[], [header, 1], twoOfTwo]

theorem combineSignatures_loses_none_sample :
    combineSignatures sampleHashes firstByteScheme sampleTx 0 nothingLeft payToTwoOfTwo
        (signedBy 3) (signedBy 2) =
      combineSignatures sampleHashes firstByteScheme sampleTx 0 nothingLeft payToTwoOfTwo
        (signedBy 2) (signedBy 3) ∧
    (verifyScript (inputContext sampleHashes firstByteScheme sampleTx 0 scriptVerifyP2SH)
      (combineSignatures sampleHashes firstByteScheme sampleTx 0 nothingLeft payToTwoOfTwo
        (signedBy 3) (signedBy 2)) payToTwoOfTwo).outcome = .ok () := by
  have hcombines := ((combineSignatures_loses_none sampleHashes firstByteScheme sampleTx 0
    nothingLeft (fun _ _ hb => absurd hb List.not_mem_nil) twoOfTwo (by decide) (by decide)
    firstByteScheme_idealFor scriptVerifyP2SH (by decide) (signedBy 3) (signedBy 2)).2
    payToTwoOfTwo (by decide) (by decide)).1 [[3, 1], []] [[2, 1], []] (by decide)
    (by decide)
  have hencoded := encoded_of_noEncodingFlags noEncodingFlags_p2sh twoOfTwo
  exact ⟨hcombines.1, (hcombines.2.passes (hencoded _ _)).2 (by decide)⟩

/-- The signatures of both keys in the wrong order, before the script. -/
def misordered : CScript := pushAll [[], [3, 1], [2, 1], twoOfTwo]

/-- With an empty script beside it, it is not put in order, and does not pass. -/
theorem misordered_not_combined :
    stackOf sampleHashes nothingLeft [] = [] ∧
    stackOf sampleHashes nothingLeft misordered = twoOfTwo :: [[2, 1], [3, 1], []] ∧
    firstByteScheme.IdealFor (pubKeysOf (solver twoOfTwo [])) ∧
    ¬Combines sampleHashes firstByteScheme sampleTx 0 scriptVerifyP2SH twoOfTwo payToTwoOfTwo
      ([] ++ [[2, 1], [3, 1], []]) [twoOfTwo] (combineSignatures sampleHashes firstByteScheme
        sampleTx 0 nothingLeft payToTwoOfTwo [] misordered) := by
  refine ⟨by decide, by decide, firstByteScheme_idealFor, fun hcombines => ?_⟩
  have hencoded := encoded_of_noEncodingFlags noEncodingFlags_p2sh twoOfTwo
  have hpass := (hcombines.passes (hencoded _ _)).2 (by decide)
  have hfail : (verifyScript (inputContext sampleHashes firstByteScheme sampleTx 0
      scriptVerifyP2SH) (combineSignatures sampleHashes firstByteScheme sampleTx 0 nothingLeft
        payToTwoOfTwo [] misordered) payToTwoOfTwo).outcome.isOk = false := by
    decide +kernel
  rw [hpass] at hfail
  cases hfail

end Samples

end Scrypta.Signing
