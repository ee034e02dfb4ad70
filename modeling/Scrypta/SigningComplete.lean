import Scrypta.SignTransaction

/-! With the keys of a standard script in the store, `SignSignature` builds a script for the input
that passes. -/

namespace Scrypta.Signing

open Interpreter
open Masternodes (CPubKey)
open Script (TxnOutType Solved solver)
open SignatureHash (CMutableTransaction CTransactionSignatureSerializer signatureHash)

/-! The hash does not depend on the scripts of the inputs. -/

section Hash

variable {hashes : Hashes} {txTo : CMutableTransaction} {nIn : ℕ} {scriptSig : CScript}

/-- An input goes into the hash with the output that it spends and its sequence number. -/
theorem serializeInput_congr (t : CTransactionSignatureSerializer) (txTo' : CTransaction)
    (h : ∀ i : ℕ, (txTo'.vin[i]?).map (fun txin => (txin.prevout, txin.nSequence)) =
      (t.txTo.vin[i]?).map fun txin => (txin.prevout, txin.nSequence)) (nInput : ℕ) :
    { t with txTo := txTo' }.serializeInput nInput = t.serializeInput nInput := by
  unfold CTransactionSignatureSerializer.serializeInput
  dsimp only
  generalize (if t.fAnyoneCanPay then t.nIn else nInput) = i
  have hi := h i
  cases hnew : txTo'.vin[i]? with
  | none =>
    rw [hnew, Option.map_none, eq_comm, Option.map_eq_none_iff] at hi
    rw [hi]
  | some txin' =>
    rw [hnew, Option.map_some, eq_comm, Option.map_eq_some_iff] at hi
    obtain ⟨txin, hold, heq⟩ := hi
    obtain ⟨hprevout, hsequence⟩ := Prod.mk.inj heq
    rw [hold]
    dsimp only
    rw [hprevout, hsequence]

/-- What of an input goes into the hash of the others. -/
def spend (txin : CTxIn) : COutPoint × BitVec 32 := (txin.prevout, txin.nSequence)

/-- The transactions differ in nothing but the scripts of their inputs. -/
structure SameButScripts (tx tx' : CMutableTransaction) : Prop where
  nVersion : tx'.nVersion = tx.nVersion
  vin : tx'.vin.map spend = tx.vin.map spend
  vout : tx'.vout = tx.vout
  nLockTime : tx'.nLockTime = tx.nLockTime

theorem SameButScripts.getSignatureHash {tx tx' : CMutableTransaction} (h : SameButScripts tx tx')
    (hashes : Hashes) (scriptCode : CScript) (nIn : ℕ) (nHashType : BitVec 32) :
    getSignatureHash hashes scriptCode tx' nIn nHashType =
      getSignatureHash hashes scriptCode tx nIn nHashType := by
  have hlen : tx'.vin.length = tx.vin.length := by
    simpa only [List.length_map] using congrArg List.length h.vin
  have hinputs (nInput : ℕ) : (CTransactionSignatureSerializer.create (toTransaction hashes tx')
      scriptCode nIn nHashType).serializeInput nInput = (CTransactionSignatureSerializer.create
        (toTransaction hashes tx) scriptCode nIn nHashType).serializeInput nInput := by
    refine serializeInput_congr (CTransactionSignatureSerializer.create (toTransaction hashes tx)
      scriptCode nIn nHashType) (toTransaction hashes tx') (fun i => ?_) nInput
    rw [← List.getElem?_map, ← List.getElem?_map]
    exact congrArg (·[i]?) h.vin
  have houtputs (nOutput : ℕ) : (CTransactionSignatureSerializer.create (toTransaction hashes tx')
      scriptCode nIn nHashType).serializeOutput nOutput = (CTransactionSignatureSerializer.create
        (toTransaction hashes tx) scriptCode nIn nHashType).serializeOutput nOutput := by
    unfold CTransactionSignatureSerializer.serializeOutput
    rw [show (CTransactionSignatureSerializer.create (toTransaction hashes tx') scriptCode nIn
      nHashType).txTo.vout = tx.vout from h.vout]
    rfl
  have hserialize : (CTransactionSignatureSerializer.create (toTransaction hashes tx')
      scriptCode nIn nHashType).serialize = (CTransactionSignatureSerializer.create
        (toTransaction hashes tx) scriptCode nIn nHashType).serialize := by
    unfold CTransactionSignatureSerializer.serialize
    rw [funext hinputs, funext houtputs]
    dsimp only [CTransactionSignatureSerializer.create, toTransaction]
    rw [hlen, h.nVersion, h.vout, h.nLockTime]
    rfl
  unfold Signing.getSignatureHash signatureHash
  dsimp only
  rw [hserialize,
    show (toTransaction hashes tx').vin.length = (toTransaction hashes tx).vin.length from hlen,
    show (toTransaction hashes tx').vout = (toTransaction hashes tx).vout from h.vout]

theorem SameButScripts.checkSig {tx tx' : CMutableTransaction} (h : SameButScripts tx tx')
    (hashes : Hashes) (sch : Scheme) (nIn : ℕ) :
    checkSig hashes sch tx' nIn = checkSig hashes sch tx nIn := by
  funext vchSig vchPubKey code
  unfold Signing.checkSig
  simp only [h.getSignatureHash]

variable (txTo nIn scriptSig) in
theorem sameButScripts_setScriptSig : SameButScripts txTo (setScriptSig txTo nIn scriptSig) where
  nVersion := rfl
  vin := by
    refine List.ext_getElem? fun i => ?_
    change ((txTo.vin.modify nIn _).map spend)[i]? = _
    rw [List.getElem?_map, List.getElem?_map, List.getElem?_modify]
    cases txTo.vin[i]? with
    | none => rfl
    | some txin =>
      simp only [Option.map_eq_map, Option.map_some]
      split <;> rfl
  vout := rfl
  nLockTime := rfl

end Hash

/-! Signatures of an ideal scheme. -/

/-- The scheme for scripts: a signature is good for its key, is encoded strictly and is longer
than a key hash; keys have one of the two encodings that are allowed; and key identifiers are the
hashes that the interpreter computes. -/
structure Scheme.Standard (sch : Scheme) (hashes : Hashes) : Prop where
  ideal : sch.Ideal
  encoding_sign : ∀ key hash (nHashType : UInt8),
    isValidSignatureEncoding (sch.sign key hash ++ [nHashType]) = true
  length_sign : ∀ key hash, 20 ≤ (sch.sign key hash).length
  encoding_getPubKey : ∀ key, key.fValid →
    isCompressedOrUncompressedPubKey (sch.getPubKey key).vch = true
  hash160 : ∀ vch, uint160Of (hashes.hash160 vch) = some (sch.hash160 vch)

/-- `ALL`, `NONE` and `SINGLE`, without and with `ANYONECANPAY`. -/
def standardHashTypes : List (BitVec 32) := [0x01, 0x02, 0x03, 0x81, 0x82, 0x83]

theorem hashType_back {nHashType : BitVec 32} (h : nHashType ∈ standardHashTypes) :
    BitVec.ofNat 32 (UInt8.ofNat nHashType.toNat).toNat = nHashType := by
  simp only [standardHashTypes, List.mem_cons, List.not_mem_nil, or_false] at h
  rcases h with rfl | rfl | rfl | rfl | rfl | rfl <;> rfl

theorem isDefinedHashtypeSignature_concat {nHashType : BitVec 32}
    (h : nHashType ∈ standardHashTypes) (vchSig : Bytes) :
    isDefinedHashtypeSignature (vchSig ++ [UInt8.ofNat nHashType.toNat]) = true := by
  unfold isDefinedHashtypeSignature
  rw [List.getLast?_concat]
  simp only [standardHashTypes, List.mem_cons, List.not_mem_nil, or_false] at h
  rcases h with rfl | rfl | rfl | rfl | rfl | rfl <;> rfl

/-- The sizes of a strictly encoded signature, and its first byte. -/
theorem signature_shape {vchSig : Bytes} (h : isValidSignatureEncoding vchSig = true) :
    9 ≤ vchSig.length ∧ vchSig.length ≤ 73 ∧ vchSig.getD 0 0 = 0x30 := by
  unfold isValidSignatureEncoding at h
  by_cases hlo : vchSig.length < 9
  · rw [if_pos hlo] at h
    cases h
  · rw [if_neg hlo] at h
    by_cases hhi : 73 < vchSig.length
    · rw [if_pos hhi] at h
      cases h
    · rw [if_neg hhi] at h
      by_cases hhead : vchSig.getD 0 0 ≠ 0x30
      · rw [if_pos hhead] at h
        cases h
      · exact ⟨by omega, by omega, not_not.1 hhead⟩

theorem pubKey_shape {vchPubKey : Bytes} (h : isCompressedOrUncompressedPubKey vchPubKey = true) :
    (vchPubKey.length = 33 ∨ vchPubKey.length = 65) ∧ vchPubKey.getD 0 0 ≠ 0x30 := by
  unfold isCompressedOrUncompressedPubKey at h
  split at h
  · cases h
  · split at h
    · rename_i hhead
      rw [hhead]
      exact ⟨Or.inr (beq_iff_eq.1 h), by decide⟩
    · split at h
      · rename_i hhead
        refine ⟨Or.inl (beq_iff_eq.1 h), ?_⟩
        rcases hhead with heq | heq <;> rw [heq] <;> decide
      · cases h

theorem signature_ne_pubKey {vchSig vchPubKey : Bytes}
    (hsig : isValidSignatureEncoding vchSig = true)
    (hkey : isCompressedOrUncompressedPubKey vchPubKey = true) : vchSig ≠ vchPubKey := by
  intro heq
  subst heq
  exact (pubKey_shape hkey).2 (signature_shape hsig).2.2

theorem checkEncodings_standard {ctx : Context} (hflags : ctx.flags = standardScriptVerifyFlags)
    {vchSig vchPubKey : Bytes} (hsig : isValidSignatureEncoding vchSig = true)
    (htype : isDefinedHashtypeSignature vchSig = true)
    (hkey : isCompressedOrUncompressedPubKey vchPubKey = true) :
    checkEncodings ctx vchSig vchPubKey = .ok () := by
  have hlen := (signature_shape hsig).1
  have hlow : hasFlag standardScriptVerifyFlags scriptVerifyLowS = false := by decide
  have hsigOk : checkSignatureEncoding vchSig standardScriptVerifyFlags = .ok () := by
    unfold checkSignatureEncoding
    rw [if_neg (by omega), if_neg (by rw [hsig]; simp)]
    simp only [hlow, htype]
    rfl
  have hkeyOk : checkPubKeyEncoding vchPubKey standardScriptVerifyFlags = .ok () := by
    unfold checkPubKeyEncoding
    rw [if_neg (by rw [hkey]; simp)]
  unfold checkEncodings
  rw [hflags, hsigOk, hkeyOk]

section Signatures

variable {hashes : Hashes} {sch : Scheme} {keystore : CBasicKeyStore}

/-- The checks of a store when it is filled: keys and scripts are filed under their own hashes, and
scripts are not too long to be pushed. -/
structure CBasicKeyStore.Filed (sch : Scheme) (keystore : CBasicKeyStore) : Prop where
  key : ∀ id key, keystore.getKey id = some key →
    key.fValid = true ∧ getID sch (sch.getPubKey key) = id
  script : ∀ id redeemScript, keystore.getCScript id = some redeemScript →
    sch.hash160 redeemScript = id ∧ redeemScript.length ≤ maxScriptElementSize

theorem pubKeyOf_vch (pubkey : CPubKey) : pubKeyOf pubkey.vch = pubkey := by
  unfold pubKeyOf
  rw [dif_pos pubkey.size_eq]

theorem signatureFor_of_some (hfiled : keystore.Filed sch) {id : BitVec 160} {key : CKey}
    (h : keystore.getKey id = some key) (hash : Uint256) (nHashType : BitVec 32) :
    signatureFor sch keystore id hash nHashType =
      some (sch.sign key hash ++ [UInt8.ofNat nHashType.toNat]) := by
  unfold signatureFor
  rw [h]
  change (signWith sch key hash).map _ = _
  rw [signWith, if_pos (hfiled.key id key h).1]
  rfl

theorem signatureFor_of_none {id : BitVec 160} (h : keystore.getKey id = none) (hash : Uint256)
    (nHashType : BitVec 32) : signatureFor sch keystore id hash nHashType = none := by
  unfold signatureFor
  rw [h]
  rfl

/-- The checker accepts what the key of this public key has signed. -/
theorem checkSig_sign (txTo : CMutableTransaction) (nIn : ℕ) (hsch : sch.Standard hashes)
    {key : CKey} (hvalid : key.fValid = true) {nHashType : BitVec 32}
    (htype : nHashType ∈ standardHashTypes) (code : CScript) :
    checkSig hashes sch txTo nIn
      (sch.sign key (getSignatureHash hashes code txTo nIn nHashType) ++
        [UInt8.ofNat nHashType.toNat]) (sch.getPubKey key).vch code = true := by
  have hkeyValid := hsch.ideal.isValid_getPubKey key hvalid
  unfold checkSig
  rw [pubKeyOf_vch, hkeyValid, if_neg (by decide), List.getLast?_concat]
  dsimp only
  rw [hashType_back htype, List.dropLast_concat, verify, hkeyValid, Bool.true_and]
  exact (hsch.ideal.verify_sign _ key _ hkeyValid).2 (hsch.ideal.setPubKey_getPubKey key hvalid)

end Signatures

/-! Scripts that are signed. -/

/-- The identifiers of the keys that can sign for the solutions, and how many of them have to. -/
def keyIDs (sch : Scheme) (solved : Solved) : List (BitVec 160) :=
  match solved.whichType with
  | .pubkey => solved.vSolutions.map fun vch => getID sch (pubKeyOf vch)
  | .pubkeyhash => solved.vSolutions.filterMap uint160Of
  | .multisig => (solved.vSolutions.drop 1).dropLast.map fun vch => getID sch (pubKeyOf vch)
  | _ => []

def nRequired (solved : Solved) : ℕ :=
  match solved.whichType with
  | .multisig => Script.firstByte solved.vSolutions.head?
  | _ => 1

/-- The store holds as many of the keys as are required. -/
def holdsEnough (sch : Scheme) (keystore : CBasicKeyStore) (solved : Solved) : Bool :=
  nRequired solved ≤ (keyIDs sch solved).countP fun id => (keystore.getKey id).isSome

/-- The public keys in the script. -/
def pubKeysOf (solved : Solved) : List Bytes :=
  match solved.whichType with
  | .pubkey => solved.vSolutions
  | .multisig => (solved.vSolutions.drop 1).dropLast
  | _ => []

/-- A script to a public key, to its hash or to some of several keys that are well formed, whose
pushes are as short as possible. -/
structure Signable (script : CScript) : Prop where
  ok : (solver script []).ok = true
  kind : (solver script []).whichType = .pubkey ∨ (solver script []).whichType = .pubkeyhash ∨
    (solver script []).whichType = .multisig ∧ ∀ vch ∈ pubKeysOf (solver script []),
      isCompressedOrUncompressedPubKey vch = true
  minimal : pushesMinimally script = true

/-- A key that the store has under the identifier of a public key of the script is the key of that
public key. -/
def NoCollision (sch : Scheme) (keystore : CBasicKeyStore) (script : CScript) : Prop :=
  ∀ vch ∈ pubKeysOf (solver script []), ∀ key,
    keystore.getKey (getID sch (pubKeyOf vch)) = some key → (sch.getPubKey key).vch = vch

/-- What is pushed for a script makes it true, on any small stack. -/
structure Satisfies (ctx : Context) (items : List Bytes) (script : CScript) : Prop where
  count : items.length ≤ 17
  sizes : ∀ b ∈ items, b.length ≠ 1 ∧ b.length ≤ 73
  runs : ∀ stack : List Bytes, stack.length < 800 →
    (evalScript ctx (items.reverse ++ stack) script).2 = .ok (vchTrue :: stack)

section Solve

variable {hashes : Hashes} {sch : Scheme} {keystore : CBasicKeyStore} {txTo : CMutableTransaction}
  {nIn : ℕ} {nHashType : BitVec 32} {script : CScript}

/-- The context of a check for an input under the standard flags. -/
def contextFor (hashes : Hashes) (sch : Scheme) (txTo : CMutableTransaction) (nIn : ℕ) : Context :=
  ⟨hashes, checkSig hashes sch txTo nIn, standardScriptVerifyFlags⟩

/-- The signature of a key for a script. -/
def signatureOf (hashes : Hashes) (sch : Scheme) (script : CScript) (txTo : CMutableTransaction)
    (nIn : ℕ) (nHashType : BitVec 32) (key : CKey) : Bytes :=
  sch.sign key (getSignatureHash hashes script txTo nIn nHashType) ++
    [UInt8.ofNat nHashType.toNat]

theorem signatureOf_kept (hsch : sch.Standard hashes) {key : CKey} {code : CScript}
    (hsize : code.length < 2 ^ 32)
    (h : ∀ b ∈ pushedData code, b = [] ∨ b.length = 20 ∨
      isCompressedOrUncompressedPubKey b = true) :
    dropSignature code (signatureOf hashes sch script txTo nIn nHashType key) = code := by
  have henc : isValidSignatureEncoding (signatureOf hashes sch script txTo nIn nHashType key) =
    true := hsch.encoding_sign key _ _
  obtain ⟨hlo, hhi, _⟩ := signature_shape henc
  refine dropSignature_eq_self hsize fun hmem => ?_
  rcases h _ hmem with hnil | hlen | hkey
  · rw [hnil] at hlo
    exact absurd hlo (by decide)
  · have hsign := hsch.length_sign key (getSignatureHash hashes script txTo nIn nHashType)
    rw [signatureOf, List.length_append, List.length_singleton] at hlen
    omega
  · exact signature_ne_pubKey henc hkey rfl

variable (txTo nIn script) in
theorem signatureOf_signs (hsch : sch.Standard hashes) (htype : nHashType ∈ standardHashTypes)
    {key : CKey} (hvalid : key.fValid = true) (hsize : script.length < 2 ^ 32)
    (h : ∀ b ∈ pushedData script, b = [] ∨ b.length = 20 ∨
      isCompressedOrUncompressedPubKey b = true) :
    Signs (contextFor hashes sch txTo nIn) script
      (signatureOf hashes sch script txTo nIn nHashType key) (sch.getPubKey key).vch where
  encodings := checkEncodings_standard rfl (hsch.encoding_sign key _ _)
    (isDefinedHashtypeSignature_concat htype _) (hsch.encoding_getPubKey key hvalid)
  kept := signatureOf_kept hsch hsize h
  good := checkSig_sign txTo nIn hsch hvalid htype script

theorem length_signatureOf (hsch : sch.Standard hashes) (key : CKey) :
    (signatureOf hashes sch script txTo nIn nHashType key).length ≠ 1 ∧
      (signatureOf hashes sch script txTo nIn nHashType key).length ≤ 73 := by
  have henc : isValidSignatureEncoding (signatureOf hashes sch script txTo nIn nHashType key) =
    true := hsch.encoding_sign key _ _
  obtain ⟨hlo, hhi, _⟩ := signature_shape henc
  exact ⟨by omega, hhi⟩

theorem uint160Of_inj {a b : Bytes} {id : BitVec 160} (ha : uint160Of a = some id)
    (hb : uint160Of b = some id) : a = b := by
  have hlena := length_of_uint160Of ha
  have hlenb := length_of_uint160Of hb
  unfold uint160Of at ha hb
  rw [if_pos hlena] at ha
  rw [if_pos hlenb] at hb
  have hsize : 256 ^ 20 = 2 ^ 160 := by norm_num
  have hlta : LittleEndian.decode a < 2 ^ 160 := by
    rw [← hsize, ← hlena]
    exact LittleEndian.decode_lt a
  have hltb : LittleEndian.decode b < 2 ^ 160 := by
    rw [← hsize, ← hlenb]
    exact LittleEndian.decode_lt b
  have hnat := congrArg BitVec.toNat (Option.some.inj (ha.trans hb.symm))
  rw [BitVec.toNat_ofNat, BitVec.toNat_ofNat, Nat.mod_eq_of_lt hlta, Nat.mod_eq_of_lt hltb] at hnat
  exact LittleEndian.decode_inj (hlena.trans hlenb.symm) hnat

/-- What signing a script comes to. -/
def SignsAsHeld (hashes : Hashes) (sch : Scheme) (keystore : CBasicKeyStore) (script : CScript)
    (txTo : CMutableTransaction) (nIn : ℕ) (r : Option SolverResult) : Prop :=
  if holdsEnough sch keystore (solver script []) then
    ∃ items whichType, r = some ⟨true, items.flatMap ScriptNum.pushData, whichType⟩ ∧
      whichType ≠ .scripthash ∧ Satisfies (contextFor hashes sch txTo nIn) items script
  else ∃ scriptSigRet whichType, r = some ⟨false, scriptSigRet, whichType⟩

theorem holdsEnough_one {id : BitVec 160} (hrequired : nRequired (solver script []) = 1)
    (hids : keyIDs sch (solver script []) = [id]) :
    holdsEnough sch keystore (solver script []) = (keystore.getKey id).isSome := by
  unfold holdsEnough
  rw [hrequired, hids, List.countP_singleton]
  cases (keystore.getKey id).isSome <;> rfl

theorem signSolver_pubkey (hsch : sch.Standard hashes) (hfiled : keystore.Filed sch)
    (hcollision : NoCollision sch keystore script) (htype : nHashType ∈ standardHashTypes)
    (hmin : pushesMinimally script = true) (hok : (solver script []).ok = true)
    (hkind : (solver script []).whichType = .pubkey) :
    SignsAsHeld hashes sch keystore script txTo nIn
      (signSolver sch keystore script (getSignatureHash hashes script txTo nIn nHashType)
        nHashType) := by
  obtain ⟨vch, hscript, hlo, hhi, hsolutions⟩ := solved_pubkey hkind hmin
  have hids : keyIDs sch (solver script []) = [getID sch (pubKeyOf vch)] := by
    unfold keyIDs
    rw [hkind, hsolutions]
    rfl
  have hrequired : nRequired (solver script []) = 1 := by
    unfold nRequired
    rw [hkind]
  have hsolver (hash : Uint256) : signSolver sch keystore script hash nHashType =
      some ⟨(sign1 sch keystore (getID sch (pubKeyOf vch)) hash nHashType []).1,
        (sign1 sch keystore (getID sch (pubKeyOf vch)) hash nHashType []).2, .pubkey⟩ := by
    unfold signSolver
    dsimp only
    rw [hok, if_neg (by decide), hkind, hsolutions]
    rfl
  rw [hsolver]
  unfold SignsAsHeld
  rw [holdsEnough_one hrequired hids]
  unfold sign1
  cases hget : keystore.getKey (getID sch (pubKeyOf vch)) with
  | none =>
    rw [signatureFor_of_none hget, Option.isSome_none, if_neg (by decide)]
    exact ⟨_, _, rfl⟩
  | some key =>
    rw [signatureFor_of_some hfiled hget, Option.isSome_some, if_pos rfl]
    have hmem : vch ∈ pubKeysOf (solver script []) := by
      unfold pubKeysOf
      rw [hkind, hsolutions]
      exact List.mem_singleton_self vch
    have hpub := hcollision vch hmem key hget
    have hvalid := (hfiled.key _ key hget).1
    have hsize : script.length < 2 ^ 32 := by
      have hlen := length_pushData_le (b := vch) (by omega)
      rw [hscript, payToPubKey, List.length_append, List.length_singleton]
      omega
    have hsigns := signatureOf_signs txTo nIn script hsch htype
      hvalid hsize fun b hb => by
        rw [hscript] at hb
        rcases mem_pushedData_pubKey hhi hb with rfl | rfl
        · exact Or.inr (Or.inr (hpub ▸ hsch.encoding_getPubKey key hvalid))
        · exact Or.inl rfl
    refine ⟨[signatureOf hashes sch script txTo nIn nHashType key], .pubkey, ?_, by decide, ?_⟩
    · dsimp only
      rw [List.nil_append, List.flatMap_singleton]
      rfl
    · refine ⟨Nat.succ_le_succ (Nat.zero_le _), fun b hb => ?_, fun stack hstack => ?_⟩
      · rw [List.mem_singleton.1 hb]
        exact length_signatureOf hsch key
      · rw [hpub] at hsigns
        have hrun := evalScript_pubKey stack hlo hhi (hscript ▸ hsigns) (by omega)
        rw [← hscript] at hrun
        exact hrun

theorem signSolver_pubkeyhash (hsch : sch.Standard hashes) (hfiled : keystore.Filed sch)
    (htype : nHashType ∈ standardHashTypes)
    (hmin : pushesMinimally script = true) (hok : (solver script []).ok = true)
    (hkind : (solver script []).whichType = .pubkeyhash) :
    SignsAsHeld hashes sch keystore script txTo nIn
      (signSolver sch keystore script (getSignatureHash hashes script txTo nIn nHashType)
        nHashType) := by
  obtain ⟨hash, hscript, hlen, hsolutions⟩ := solved_pubkeyhash hkind hmin
  obtain ⟨keyID, hkeyID⟩ := uint160Of_of_length hlen
  have hids : keyIDs sch (solver script []) = [keyID] := by
    unfold keyIDs
    rw [hkind, hsolutions]
    dsimp only
    rw [List.filterMap_cons, hkeyID]
    rfl
  have hrequired : nRequired (solver script []) = 1 := by
    unfold nRequired
    rw [hkind]
  have hsolver (signed : Uint256) : signSolver sch keystore script signed nHashType =
      some (if (sign1 sch keystore keyID signed nHashType []).1 then
        ⟨true, (sign1 sch keystore keyID signed nHashType []).2 ++
          ScriptNum.pushData (getPubKey sch keystore keyID).vch, .pubkeyhash⟩
      else ⟨false, (sign1 sch keystore keyID signed nHashType []).2, .pubkeyhash⟩) := by
    unfold signSolver
    dsimp only
    rw [hok, if_neg (by decide), hkind, hsolutions]
    dsimp only [List.getElem?_cons_zero, Option.bind_some]
    rw [hkeyID]
    rfl
  rw [hsolver]
  unfold SignsAsHeld
  rw [holdsEnough_one hrequired hids]
  unfold sign1
  cases hget : keystore.getKey keyID with
  | none =>
    rw [signatureFor_of_none hget, Option.isSome_none, if_neg (by decide)]
    exact ⟨_, _, rfl⟩
  | some key =>
    rw [signatureFor_of_some hfiled hget, Option.isSome_some, if_pos rfl]
    obtain ⟨hvalid, hid⟩ := hfiled.key _ key hget
    have hpubkey : getPubKey sch keystore keyID = sch.getPubKey key := by
      unfold getPubKey
      rw [hget]
    have hhash : hashes.hash160 (sch.getPubKey key).vch = hash := by
      have hcompute := hsch.hash160 (sch.getPubKey key).vch
      change uint160Of _ = some (getID sch (sch.getPubKey key)) at hcompute
      rw [hid] at hcompute
      exact uint160Of_inj hcompute hkeyID
    have hsize : script.length < 2 ^ 32 := by
      have hpush := length_pushData_le (b := hash) (by omega)
      rw [hscript, payToPubKeyHash, List.length_cons, List.length_cons, List.length_append,
        List.length_cons, List.length_singleton]
      omega
    have hsigns := signatureOf_signs txTo nIn script hsch htype
      hvalid hsize fun b hb => by
        rw [hscript] at hb
        rcases mem_pushedData_pubKeyHash hlen hb with rfl | rfl
        · exact Or.inr (Or.inl hlen)
        · exact Or.inl rfl
    refine ⟨[signatureOf hashes sch script txTo nIn nHashType key, (sch.getPubKey key).vch],
      .pubkeyhash, ?_, by decide, ?_⟩
    · dsimp only
      rw [if_pos rfl, hpubkey, List.nil_append, List.flatMap_cons, List.flatMap_singleton]
      rfl
    · refine ⟨Nat.succ_le_succ (Nat.succ_le_succ (Nat.zero_le _)), fun b hb => ?_,
        fun stack hstack => ?_⟩
      · simp only [List.mem_cons, List.not_mem_nil, or_false] at hb
        rcases hb with rfl | rfl
        · exact length_signatureOf hsch key
        · rcases (pubKey_shape (hsch.encoding_getPubKey key hvalid)).1 with hsize | hsize <;>
            omega
      · have hrun := evalScript_pubKeyHash stack hlen hhash (hscript ▸ hsigns)
          (by omega)
        rw [← hscript] at hrun
        exact hrun

/-- The signatures for the first of the keys that the store has. -/
def chosen (sch : Scheme) (keystore : CBasicKeyStore) (hash : Uint256) (nHashType : BitVec 32)
    (keys : List Bytes) : List Bytes :=
  keys.filterMap fun vch => signatureFor sch keystore (getID sch (pubKeyOf vch)) hash nHashType

theorem sign1_of_none {id : BitVec 160} {hash : Uint256}
    (h : signatureFor sch keystore id hash nHashType = none) (scriptSigRet : CScript) :
    sign1 sch keystore id hash nHashType scriptSigRet = (false, scriptSigRet) := by
  unfold sign1
  rw [h]

theorem sign1_of_some {id : BitVec 160} {hash : Uint256} {vchSig : Bytes}
    (h : signatureFor sch keystore id hash nHashType = some vchSig) (scriptSigRet : CScript) :
    sign1 sch keystore id hash nHashType scriptSigRet =
      (true, scriptSigRet ++ ScriptNum.pushData vchSig) := by
  unfold sign1
  rw [h]

theorem chosen_cons_none {hash : Uint256} {vch : Bytes} (keys : List Bytes)
    (h : signatureFor sch keystore (getID sch (pubKeyOf vch)) hash nHashType = none) :
    chosen sch keystore hash nHashType (vch :: keys) = chosen sch keystore hash nHashType keys :=
  List.filterMap_cons_none h

theorem chosen_cons_some {hash : Uint256} {vch vchSig : Bytes} (keys : List Bytes)
    (h : signatureFor sch keystore (getID sch (pubKeyOf vch)) hash nHashType = some vchSig) :
    chosen sch keystore hash nHashType (vch :: keys) =
      vchSig :: chosen sch keystore hash nHashType keys :=
  List.filterMap_cons_some h

theorem signNLoop_eq (hash : Uint256) (nRequired : ℕ) (keys : List Bytes) (nSigned : ℕ)
    (scriptSigRet : CScript) :
    signNLoop sch keystore hash nHashType nRequired keys nSigned scriptSigRet =
      (nSigned + ((chosen sch keystore hash nHashType keys).take (nRequired - nSigned)).length,
        scriptSigRet ++ ((chosen sch keystore hash nHashType keys).take
          (nRequired - nSigned)).flatMap ScriptNum.pushData) := by
  induction keys generalizing nSigned scriptSigRet with
  | nil => simp [signNLoop, chosen]
  | cons vch keys ih =>
    rw [signNLoop]
    by_cases hmore : nSigned < nRequired
    · rw [if_pos hmore]
      dsimp only
      cases hsig : signatureFor sch keystore (getID sch (pubKeyOf vch)) hash nHashType with
      | none =>
        rw [sign1_of_none hsig, chosen_cons_none keys hsig]
        exact ih nSigned scriptSigRet
      | some vchSig =>
        have hstep : nRequired - nSigned = nRequired - (nSigned + 1) + 1 := by omega
        rw [sign1_of_some hsig, chosen_cons_some keys hsig, hstep, List.take_succ_cons,
          List.length_cons, List.flatMap_cons, ← List.append_assoc]
        refine (ih (nSigned + 1) (scriptSigRet ++ ScriptNum.pushData vchSig)).trans ?_
        refine Prod.ext ?_ rfl
        dsimp only
        omega
    · have hnone : nRequired - nSigned = 0 := by omega
      rw [if_neg hmore, hnone, List.take_zero]
      simp

theorem length_chosen (hfiled : keystore.Filed sch) (hash : Uint256) (keys : List Bytes) :
    (chosen sch keystore hash nHashType keys).length =
      (keys.map fun vch => getID sch (pubKeyOf vch)).countP fun id =>
        (keystore.getKey id).isSome := by
  induction keys with
  | nil => rfl
  | cons vch keys ih =>
    rw [List.map_cons, List.countP_cons]
    cases hget : keystore.getKey (getID sch (pubKeyOf vch)) with
    | none =>
      rw [chosen_cons_none keys (signatureFor_of_none hget hash nHashType), ih]
      rfl
    | some key =>
      rw [chosen_cons_some keys (signatureFor_of_some hfiled hget hash nHashType),
        List.length_cons, ih]
      rfl

/-- What is chosen for a list of keys is in its order, whatever is asked of the pairs. -/
theorem inOrder_chosen {R : Bytes → Bytes → Prop} {hash : Uint256} {keys : List Bytes}
    (h : ∀ vch ∈ keys, ∀ vchSig,
      signatureFor sch keystore (getID sch (pubKeyOf vch)) hash nHashType = some vchSig →
        R vchSig vch) (m : ℕ) :
    List.SublistForall₂ R ((chosen sch keystore hash nHashType keys).take m) keys := by
  induction keys generalizing m with
  | nil =>
    rw [chosen, List.filterMap_nil, List.take_nil]
    exact List.SublistForall₂.nil
  | cons vch keys ih =>
    have hkeys := ih fun v hv => h v (List.mem_cons_of_mem _ hv)
    cases hsig : signatureFor sch keystore (getID sch (pubKeyOf vch)) hash nHashType with
    | none =>
      rw [chosen_cons_none keys hsig]
      exact List.SublistForall₂.cons_right (hkeys m)
    | some vchSig =>
      rw [chosen_cons_some keys hsig]
      cases m with
      | zero =>
        rw [List.take_zero]
        exact List.SublistForall₂.nil
      | succ m =>
        exact List.SublistForall₂.cons (h vch List.mem_cons_self vchSig hsig) (hkeys m)

theorem signatureFor_eq_some (hfiled : keystore.Filed sch) {id : BitVec 160} {hash : Uint256}
    {vchSig : Bytes} (h : signatureFor sch keystore id hash nHashType = some vchSig) :
    ∃ key, keystore.getKey id = some key ∧
      vchSig = sch.sign key hash ++ [UInt8.ofNat nHashType.toNat] := by
  cases hget : keystore.getKey id with
  | none =>
    rw [signatureFor_of_none hget] at h
    cases h
  | some key =>
    rw [signatureFor_of_some hfiled hget] at h
    exact ⟨key, rfl, (Option.some.inj h).symm⟩

variable (txTo nIn script) in
/-- The signatures that are chosen satisfy the multisig script. -/
theorem chosen_signsAll (hsch : sch.Standard hashes) (hfiled : keystore.Filed sch)
    (htype : nHashType ∈ standardHashTypes) {keys : List Bytes} (hsize : script.length < 2 ^ 32)
    (hcollision : ∀ vch ∈ keys, ∀ key, keystore.getKey (getID sch (pubKeyOf vch)) = some key →
      (sch.getPubKey key).vch = vch)
    (hformed : ∀ vch ∈ keys, isCompressedOrUncompressedPubKey vch = true)
    (hdata : ∀ b ∈ pushedData script, b ∈ keys ∨ b = []) (m : ℕ) :
    SignsAll (contextFor hashes sch txTo nIn) script
      ((chosen sch keystore (getSignatureHash hashes script txTo nIn nHashType) nHashType
        keys).take m) keys := by
  have hmem : ∀ vchSig ∈ (chosen sch keystore (getSignatureHash hashes script txTo nIn nHashType)
      nHashType keys).take m, ∃ key, vchSig =
        signatureOf hashes sch script txTo nIn nHashType key := by
    intro vchSig hsig
    obtain ⟨vch, _, hfor⟩ := List.mem_filterMap.1 (List.mem_of_mem_take hsig)
    obtain ⟨key, _, heq⟩ := signatureFor_eq_some hfiled hfor
    exact ⟨key, heq⟩
  refine ⟨fun vchSig hsig vch hvch => ?_, fun vchSig hsig => ?_, ?_⟩
  · obtain ⟨key, rfl⟩ := hmem vchSig hsig
    exact checkEncodings_standard rfl (hsch.encoding_sign key _ _)
      (isDefinedHashtypeSignature_concat htype _) (hformed vch hvch)
  · obtain ⟨key, rfl⟩ := hmem vchSig hsig
    exact signatureOf_kept hsch hsize fun b hb =>
      (hdata b hb).elim (fun hkey => Or.inr (Or.inr (hformed b hkey))) Or.inl
  · refine Matching.reverse (inOrder_chosen (fun vch hvch vchSig hfor => ?_) m)
    obtain ⟨key, hget, rfl⟩ := signatureFor_eq_some hfiled hfor
    have hgood := checkSig_sign txTo nIn hsch
      (hfiled.key _ key hget).1 htype script
    rw [hcollision vch hvch key hget] at hgood
    exact hgood

theorem toNat_of_le_sixteen {m : ℕ} (h : m ≤ 16) : (UInt8.ofNat m).toNat = m :=
  toNat_ofNat_of_lt (by omega)

theorem signSolver_multisig (hsch : sch.Standard hashes) (hfiled : keystore.Filed sch)
    (hcollision : NoCollision sch keystore script) (htype : nHashType ∈ standardHashTypes)
    (hformed : ∀ vch ∈ pubKeysOf (solver script []), isCompressedOrUncompressedPubKey vch = true)
    (hmin : pushesMinimally script = true) (hok : (solver script []).ok = true)
    (hkind : (solver script []).whichType = .multisig) :
    SignsAsHeld hashes sch keystore script txTo nIn
      (signSolver sch keystore script (getSignatureHash hashes script txTo nIn nHashType)
        nHashType) := by
  obtain ⟨m, keys, hmultisig, hsolutions⟩ := multisigScript_of_solved hkind hok
  have hm := hmultisig.one_le
  have hle := hmultisig.le_length
  have hmax := hmultisig.length_le
  have hmiddle : ((solver script []).vSolutions.drop 1).dropLast = keys := by
    rw [hsolutions, List.drop_one, List.tail_cons, List.dropLast_concat]
  have hfirst : Script.firstByte (solver script []).vSolutions.head? = m := by
    rw [hsolutions]
    exact toNat_of_le_sixteen (by omega)
  have hpubkeys : pubKeysOf (solver script []) = keys := by
    unfold pubKeysOf
    rw [hkind]
    exact hmiddle
  have hids : keyIDs sch (solver script []) = keys.map fun vch => getID sch (pubKeyOf vch) := by
    unfold keyIDs
    rw [hkind]
    dsimp only
    rw [hmiddle]
  have hrequired : nRequired (solver script []) = m := by
    unfold nRequired
    rw [hkind]
    exact hfirst
  have hsolver (hash : Uint256) : signSolver sch keystore script hash nHashType =
      some ⟨((chosen sch keystore hash nHashType keys).take m).length == m,
        ([] :: (chosen sch keystore hash nHashType keys).take m).flatMap ScriptNum.pushData,
        .multisig⟩ := by
    unfold signSolver
    dsimp only
    rw [hok, if_neg (by decide), hkind]
    dsimp only
    unfold signN
    rw [hmiddle, hfirst]
    dsimp only
    rw [signNLoop_eq, Nat.sub_zero, Nat.zero_add]
    rfl
  rw [hsolver]
  have hcount : ((chosen sch keystore (getSignatureHash hashes script txTo nIn nHashType) nHashType
      keys).take m).length = min m ((keys.map fun vch => getID sch (pubKeyOf vch)).countP fun id =>
        (keystore.getKey id).isSome) := by
    rw [List.length_take, length_chosen hfiled]
  unfold SignsAsHeld holdsEnough
  rw [hrequired, hids]
  by_cases henough : m ≤ (keys.map fun vch => getID sch (pubKeyOf vch)).countP fun id =>
      (keystore.getKey id).isSome
  · rw [if_pos (by simpa using henough)]
    rw [Nat.min_eq_left henough] at hcount
    have hsigns := chosen_signsAll txTo nIn script hsch hfiled htype hmultisig.length_lt
      (hpubkeys ▸ hcollision) (hpubkeys ▸ hformed) (fun b hb => hmultisig.mem_pushedData hb) m
    refine ⟨_, .multisig, by rw [hcount, beq_self_eq_true], by decide, ?_⟩
    refine ⟨?_, fun b hb => ?_, fun stack hstack => ?_⟩
    · rw [List.length_cons, hcount]
      omega
    · cases List.mem_cons.1 hb with
      | inl hnil =>
        rw [hnil]
        exact ⟨by decide, by decide⟩
      | inr hmem =>
        obtain ⟨vch, _, hfor⟩ := List.mem_filterMap.1 (List.mem_of_mem_take hmem)
        obtain ⟨key, _, rfl⟩ := signatureFor_eq_some hfiled hfor
        exact length_signatureOf hsch key
    · rw [← hcount] at hmultisig
      rw [List.reverse_cons, List.append_assoc]
      exact hmultisig.evalScript_signed stack (fun _ => hmin) hsigns hstack
  · rw [if_neg (by simpa using henough)]
    have hfalse : (((chosen sch keystore (getSignatureHash hashes script txTo nIn nHashType)
        nHashType keys).take m).length == m) = false := by
      rw [hcount, beq_eq_false_iff_ne]
      omega
    rw [hfalse]
    exact ⟨_, _, rfl⟩

variable (txTo nIn) in
theorem signSolver_signable (hsch : sch.Standard hashes) (hfiled : keystore.Filed sch)
    (hcollision : NoCollision sch keystore script) (htype : nHashType ∈ standardHashTypes)
    (h : Signable script) :
    SignsAsHeld hashes sch keystore script txTo nIn
      (signSolver sch keystore script (getSignatureHash hashes script txTo nIn nHashType)
        nHashType) := by
  rcases h.kind with hkind | hkind | ⟨hkind, hformed⟩
  · exact signSolver_pubkey hsch hfiled hcollision htype h.minimal h.ok hkind
  · exact signSolver_pubkeyhash hsch hfiled htype h.minimal h.ok hkind
  · exact signSolver_multisig hsch hfiled hcollision htype hformed h.minimal h.ok hkind

/-! Running the result. -/

variable (hashes sch txTo nIn) in
theorem contextFor_setScriptSig (scriptSig : CScript) :
    contextFor hashes sch (setScriptSig txTo nIn scriptSig) nIn =
      contextFor hashes sch txTo nIn := by
  unfold contextFor
  rw [(sameButScripts_setScriptSig txTo nIn scriptSig).checkSig]

theorem isPushOnly_pushes {bs : List Bytes}
    (h : (bs.flatMap ScriptNum.pushData).length < 2 ^ 32) :
    Script.isPushOnly (bs.flatMap ScriptNum.pushData) = true := by
  unfold Script.isPushOnly
  generalize (bs.flatMap ScriptNum.pushData).length = turns
  induction bs generalizing turns with
  | nil => cases turns <;> rfl
  | cons b bs ih =>
    cases turns with
    | zero => rfl
    | succ turns =>
      have hle : pushOpcode b ≤ Script.op16 :=
        UInt8.le_trans (pushOpcode_le b) (by decide)
      have hb := length_le_pushData b
      rw [List.flatMap_cons, List.length_append] at h
      rw [List.flatMap_cons, Script.pushOnlyLoop, getOp2_pushData (by omega)]
      split
      · rfl
      · simp only [hle, decide_true, Bool.true_and]
        exact ih (by omega) turns

theorem length_items_le {ctx : Context} {items : List Bytes} {redeemScript : CScript}
    (hsat : Satisfies ctx items redeemScript) {last : List Bytes}
    (hlast : ∀ b ∈ last, b.length ≠ 1 ∧ b.length ≤ maxScriptElementSize)
    (hcount : last.length ≤ 1) :
    ((items ++ last).flatMap ScriptNum.pushData).length ≤ 10000 := by
  have hitems := hsat.count
  have hlen := length_flatMap_pushData_le (show 520 ≤ 0xffff by decide)
    fun b (hb : b ∈ items ++ last) => (List.mem_append.1 hb).elim
      (fun h => (hsat.sizes b h).2.trans (by decide)) fun h => (hlast b h).2
  rw [List.length_append] at hlen
  omega

/-- The pushes of a script that satisfies another one, with one push more. -/
theorem evalScript_items {ctx : Context} {items : List Bytes} {redeemScript : CScript}
    (hsat : Satisfies ctx items redeemScript) {last : List Bytes}
    (hlast : ∀ b ∈ last, b.length ≠ 1 ∧ b.length ≤ maxScriptElementSize)
    (hcount : last.length ≤ 1) :
    (evalScript ctx [] ((items ++ last).flatMap ScriptNum.pushData)).2 =
      .ok (last.reverse ++ items.reverse) := by
  have hitems := hsat.count
  have hrun := evalScript_pushes ctx []
    (fun b (hb : b ∈ items ++ last) => (List.mem_append.1 hb).elim
      (fun h => ⟨(hsat.sizes b h).1, (hsat.sizes b h).2.trans (by decide)⟩) (hlast b))
    (by rw [List.length_append, List.length_nil]; omega) (length_items_le hsat hlast hcount)
  rw [List.append_nil, List.reverse_append] at hrun
  exact hrun

theorem outcome_bare {ctx : Context} {scriptSig scriptPubKey : CScript}
    {stackCopy stack : List Bytes} (hpush : Script.isPushOnly scriptSig = true)
    (hsig : (evalScript ctx [] scriptSig).2 = .ok stackCopy)
    (hpub : (evalScript ctx stackCopy scriptPubKey).2 = .ok stack)
    (hbare : Script.isPayToScriptHash scriptPubKey = false) :
    (verifyScript ctx scriptSig scriptPubKey).outcome = checkTop stack := by
  unfold verifyScript
  rw [hpush, if_neg (by simp)]
  match hrun : evalScript ctx [] scriptSig, hsig with
  | (n, .ok stackCopy'), hsig =>
    cases Except.ok.inj hsig
    dsimp only
    match hrun' : evalScript ctx stackCopy scriptPubKey, hpub with
    | (k, .ok stack'), hpub =>
      cases Except.ok.inj hpub
      dsimp only
      match htop : checkTop stack with
      | .error stop => rfl
      | .ok () =>
        dsimp only
        rw [hbare, if_neg (by simp)]

theorem outcome_scriptHash {ctx : Context} {scriptSig scriptPubKey : CScript} {vch : Bytes}
    {stackCopy stack stack' : List Bytes} (hflag : hasFlag ctx.flags scriptVerifyP2SH = true)
    (hpush : Script.isPushOnly scriptSig = true)
    (hsig : (evalScript ctx [] scriptSig).2 = .ok (vch :: stackCopy))
    (hpub : (evalScript ctx (vch :: stackCopy) scriptPubKey).2 = .ok (vchTrue :: stack))
    (hpay : Script.isPayToScriptHash scriptPubKey = true)
    (hredeem : (evalScript ctx stackCopy vch).2 = .ok stack') :
    (verifyScript ctx scriptSig scriptPubKey).outcome = checkTop stack' := by
  unfold verifyScript
  rw [hpush, if_neg (by simp)]
  match hrun : evalScript ctx [] scriptSig, hsig with
  | (n, .ok stackCopy'), hsig =>
    cases Except.ok.inj hsig
    dsimp only
    match hrun' : evalScript ctx (vch :: stackCopy) scriptPubKey, hpub with
    | (k, .ok stack₁), hpub =>
      cases Except.ok.inj hpub
      have htop : checkTop (vchTrue :: stack) = .ok () := rfl
      dsimp only
      rw [htop]
      dsimp only
      rw [if_pos ⟨hflag, hpay⟩, if_neg (by decide)]
      change ((evalScript ctx stackCopy vch).2.bind checkTop) = _
      rw [hredeem]
      rfl

/-- The script that the keys have to sign for: that of the output, or the one that it pays to and
that is in the store. -/
def SignedScript (keystore : CBasicKeyStore) (fromPubKey script : CScript) : Prop :=
  (Script.isPayToScriptHash fromPubKey = false ∧ script = fromPubKey) ∨
    (Script.isPayToScriptHash fromPubKey = true ∧
      ∃ id, uint160Of ((fromPubKey.drop 2).take 20) = some id ∧
        keystore.getCScript id = some script)

theorem verifies_of_outcome {scriptSig scriptPubKey : CScript}
    (h : (verifyScript (contextFor hashes sch txTo nIn) scriptSig scriptPubKey).outcome = .ok ()) :
    verifies hashes sch scriptSig scriptPubKey txTo nIn = true := by
  unfold verifies
  have houtcome : (verifyScript ⟨hashes, checkSig hashes sch txTo nIn, standardScriptVerifyFlags⟩
      scriptSig scriptPubKey).outcome = .ok () := h
  rw [houtcome]

theorem verifies_setScriptSig (scriptSig scriptPubKey s : CScript) :
    verifies hashes sch scriptSig scriptPubKey (setScriptSig txTo nIn s) nIn =
      verifies hashes sch scriptSig scriptPubKey txTo nIn := by
  have hctx := contextFor_setScriptSig hashes sch txTo nIn s
  unfold contextFor at hctx
  unfold verifies
  rw [hctx]

/-- What satisfies the script passes, as it is where the output has the script. -/
theorem verifies_bare {items : List Bytes} (hbare : Script.isPayToScriptHash script = false)
    (hsat : Satisfies (contextFor hashes sch txTo nIn) items script) :
    verifies hashes sch (items.flatMap ScriptNum.pushData) script txTo nIn = true := by
  have hnone : ∀ b ∈ ([] : List Bytes), b.length ≠ 1 ∧ b.length ≤ maxScriptElementSize :=
    fun b hb => (List.not_mem_nil hb).elim
  have hsig := evalScript_items hsat hnone (Nat.zero_le _)
  rw [List.append_nil] at hsig
  have hpub := hsat.runs [] (by decide)
  rw [List.append_nil] at hpub
  have hlen := length_items_le hsat hnone (Nat.zero_le _)
  rw [List.append_nil] at hlen
  exact verifies_of_outcome (outcome_bare (isPushOnly_pushes (by omega)) hsig hpub hbare)

/-- And with the script pushed after it where the output pays to the hash of the script. -/
theorem verifies_scriptHash {items : List Bytes} {fromPubKey : CScript}
    (hpay : Script.isPayToScriptHash fromPubKey = true)
    (hhash : hashes.hash160 script = (fromPubKey.drop 2).take 20)
    (hlo : 2 ≤ script.length) (hhi : script.length ≤ maxScriptElementSize)
    (hsat : Satisfies (contextFor hashes sch txTo nIn) items script) :
    verifies hashes sch (items.flatMap ScriptNum.pushData ++ ScriptNum.pushData script) fromPubKey
      txTo nIn = true := by
  have hmax : maxScriptElementSize = 520 := rfl
  obtain ⟨hfrom, hlen⟩ := eq_payToScriptHash hpay
  have hlast : ∀ b ∈ [script], b.length ≠ 1 ∧ b.length ≤ maxScriptElementSize := fun b hb => by
    rw [List.mem_singleton.1 hb]
    exact ⟨by omega, hhi⟩
  have hsig := evalScript_items hsat hlast (Nat.le_refl _)
  have hcount := hsat.count
  have hpub := evalScript_scriptHash (contextFor hashes sch txTo nIn)
    items.reverse hlen hhash (by rw [List.length_reverse]; omega)
  rw [← hfrom] at hpub
  have hitems : items.flatMap ScriptNum.pushData ++ ScriptNum.pushData script =
      (items ++ [script]).flatMap ScriptNum.pushData := by
    rw [List.flatMap_append, List.flatMap_singleton]
  rw [hitems]
  have hrun := hsat.runs [] (by decide)
  rw [List.append_nil] at hrun
  have hflag : hasFlag standardScriptVerifyFlags scriptVerifyP2SH = true := by decide
  have hbytes := length_items_le hsat hlast (Nat.le_refl _)
  exact verifies_of_outcome
    (outcome_scriptHash hflag (isPushOnly_pushes (by omega)) hsig hpub hpay hrun)

theorem two_le_length (h : Signable script) : 2 ≤ script.length := by
  rcases h.kind with hkind | hkind | ⟨hkind, _⟩
  · obtain ⟨vch, hscript, hlo, _, _⟩ := solved_pubkey hkind h.minimal
    have hne : ScriptNum.pushData vch ≠ [] := by
      unfold ScriptNum.pushData
      split
      · exact List.cons_ne_nil _ _
      · split
        · exact List.cons_ne_nil _ _
        · split <;> exact List.cons_ne_nil _ _
    have hpos := List.length_pos_iff.2 hne
    rw [hscript, payToPubKey, List.length_append, List.length_singleton]
    omega
  · obtain ⟨hash, hscript, _, _⟩ := solved_pubkeyhash hkind h.minimal
    rw [hscript, payToPubKeyHash, List.length_cons, List.length_cons]
    omega
  · obtain ⟨m, keys, hmultisig, _⟩ := multisigScript_of_solved hkind h.ok
    exact hmultisig.two_le_length

theorem bare_of_signable (h : Signable script) : Script.isPayToScriptHash script = false := by
  by_contra hpay
  rw [Bool.not_eq_false] at hpay
  have htype : (solver script []).whichType = .scripthash := by
    unfold Script.solver
    rw [if_pos hpay]
  rcases h.kind with hkind | hkind | ⟨hkind, _⟩ <;> rw [htype] at hkind <;> cases hkind

theorem signSolver_scripthash {fromPubKey : CScript} {id : BitVec 160}
    (hpay : Script.isPayToScriptHash fromPubKey = true)
    (hid : uint160Of ((fromPubKey.drop 2).take 20) = some id)
    (hget : keystore.getCScript id = some script) (hash : Uint256) :
    signSolver sch keystore fromPubKey hash nHashType = some ⟨true, script, .scripthash⟩ := by
  unfold signSolver Script.solver
  rw [if_pos hpay]
  dsimp only
  rw [if_neg (by decide), List.nil_append, List.getElem?_cons_zero, Option.bind_some, hid,
    Option.map_some, hget]

theorem signSignature_bare (hsch : sch.Standard hashes) (hfiled : keystore.Filed sch)
    (hcollision : NoCollision sch keystore script) (htype : nHashType ∈ standardHashTypes)
    (hin : nIn < txTo.vin.length) (h : Signable script) :
    ∃ signed, signSignature hashes sch keystore script txTo nIn nHashType =
      some (holdsEnough sch keystore (solver script []), signed) := by
  have hsigned := signSolver_signable txTo nIn hsch hfiled hcollision htype h
  unfold SignsAsHeld at hsigned
  unfold signSignature
  rw [if_neg (by omega)]
  dsimp only
  split at hsigned
  · rename_i henough
    obtain ⟨items, whichType, hresult, hne, hsat⟩ := hsigned
    rw [hresult, henough]
    dsimp only [Option.bind_some]
    rw [if_neg (by decide), if_neg hne, verifies_setScriptSig,
      verifies_bare (bare_of_signable h) hsat]
    exact ⟨_, rfl⟩
  · rename_i hfew
    obtain ⟨scriptSigRet, whichType, hresult⟩ := hsigned
    rw [hresult, Bool.eq_false_iff.2 hfew]
    exact ⟨_, rfl⟩

theorem signSignature_scriptHash (hsch : sch.Standard hashes) (hfiled : keystore.Filed sch)
    (hcollision : NoCollision sch keystore script) (htype : nHashType ∈ standardHashTypes)
    (hin : nIn < txTo.vin.length) {fromPubKey : CScript} {id : BitVec 160}
    (hpay : Script.isPayToScriptHash fromPubKey = true)
    (hid : uint160Of ((fromPubKey.drop 2).take 20) = some id)
    (hget : keystore.getCScript id = some script) (h : Signable script) :
    ∃ signed, signSignature hashes sch keystore fromPubKey txTo nIn nHashType =
      some (holdsEnough sch keystore (solver script []), signed) := by
  have hsigned := signSolver_signable txTo nIn hsch hfiled hcollision htype h
  obtain ⟨hfile, hsize⟩ := hfiled.script id script hget
  have hhash : hashes.hash160 script = (fromPubKey.drop 2).take 20 := by
    have hcompute := hsch.hash160 script
    rw [hfile] at hcompute
    exact uint160Of_inj hcompute hid
  unfold SignsAsHeld at hsigned
  unfold signSignature
  rw [if_neg (by omega)]
  dsimp only
  rw [signSolver_scripthash hpay hid hget]
  dsimp only [Option.bind_some]
  rw [if_neg (by decide), if_pos rfl, (sameButScripts_setScriptSig _ _ _).getSignatureHash]
  split at hsigned
  · rename_i henough
    obtain ⟨items, whichType, hresult, hne, hsat⟩ := hsigned
    rw [hresult, henough]
    dsimp only [Option.bind_some]
    rw [if_neg (by simp [hne]), verifies_setScriptSig, verifies_setScriptSig,
      verifies_scriptHash hpay hhash (two_le_length h) hsize hsat]
    exact ⟨_, rfl⟩
  · rename_i hfew
    obtain ⟨scriptSigRet, whichType, hresult⟩ := hsigned
    rw [hresult, Bool.eq_false_iff.2 hfew]
    exact ⟨_, rfl⟩

end Solve

/-- With an ideal scheme `SignSignature` succeeds exactly when the store has enough of the keys. -/
theorem signSignature_iff_holdsEnough (hashes : Hashes) (sch : Scheme)
    (hsch : sch.Standard hashes) (keystore : CBasicKeyStore) (hfiled : keystore.Filed sch)
    (fromPubKey script : CScript) (hscript : SignedScript keystore fromPubKey script)
    (h : Signable script) (hcollision : NoCollision sch keystore script)
    (txTo : CMutableTransaction) (nIn : ℕ) (hin : nIn < txTo.vin.length) (nHashType : BitVec 32)
    (htype : nHashType ∈ standardHashTypes) :
    ∃ signed, signSignature hashes sch keystore fromPubKey txTo nIn nHashType =
      some (holdsEnough sch keystore (solver script []), signed) := by
  rcases hscript with ⟨_, rfl⟩ | ⟨hpay, id, hid, hget⟩
  · exact signSignature_bare hsch hfiled hcollision htype hin h
  · exact signSignature_scriptHash hsch hfiled hcollision htype hin hpay hid hget h

/-! A scheme with one key. -/

def sampleHashes : Hashes := Interpreter.equalKeys.hashes

def samplePubKey : CPubKey := ⟨2 :: List.replicate 32 0, rfl⟩

def sampleSignature : Bytes :=
  [0x30, 20, 2, 8, 1, 1, 1, 1, 1, 1, 1, 1, 2, 8, 1, 1, 1, 1, 1, 1, 1, 1]

def sampleScheme : Scheme where
  Point := Unit
  hash160 _ := 0
  setPubKey _ := some ()
  secretPoint _ := ()
  getPubKey _ := samplePubKey
  sign _ _ := sampleSignature
  verify _ _ vchSig := vchSig == sampleSignature

def sampleKey : CKey := ⟨true, true, 1⟩

def sampleStore : CBasicKeyStore where
  getKey id := if id = 0 then some sampleKey else none
  getCScript _ := none

def sampleTx : CMutableTransaction :=
  ⟨1, [{ prevout := ⟨1, 0⟩, scriptSig := [], nSequence := 0 }],
    [{ nValue := 1, scriptPubKey := [] }], 0⟩

theorem sampleScheme_standard : sampleScheme.Standard sampleHashes where
  ideal :=
    { sign_ne_nil := fun _ _ => List.cons_ne_nil _ _
      verify_sign := fun _ _ _ _ => ⟨fun _ => rfl, fun _ => rfl⟩
      setPubKey_getPubKey := fun _ _ => rfl
      isValid_getPubKey := fun _ _ => rfl }
  encoding_sign _ _ nHashType := by
    change isValidSignatureEncoding (sampleSignature ++ [nHashType]) = true
    have hsign : (1 : UInt8) &&& 0x80 = 0 := rfl
    simp [isValidSignatureEncoding, sampleSignature, isPadded, hsign]
  length_sign _ _ := by
    change 20 ≤ sampleSignature.length
    decide
  encoding_getPubKey _ _ := rfl
  hash160 _ := rfl

theorem sampleStore_filed : sampleStore.Filed sampleScheme where
  key id key h := by
    change (if id = 0 then some sampleKey else none) = some key at h
    split at h
    · rename_i hid
      cases h
      exact ⟨rfl, hid.symm⟩
    · cases h
  script _ _ h := by cases h

/-- The public key is pushed in the shortest way, and the signature passes. -/
theorem signSignature_iff_holdsEnough_sample :
    (signSignature sampleHashes sampleScheme sampleStore (payToPubKey samplePubKey.vch) sampleTx 0
      1).map Prod.fst = some true := by
  have hcollision : NoCollision sampleScheme sampleStore (payToPubKey samplePubKey.vch) := by
    intro vch hvch key _
    have hkeys : pubKeysOf (solver (payToPubKey samplePubKey.vch) []) = [samplePubKey.vch] := by
      decide
    rw [hkeys] at hvch
    exact (List.mem_singleton.1 hvch).symm
  obtain ⟨signed, hsigned⟩ := signSignature_iff_holdsEnough sampleHashes sampleScheme
    sampleScheme_standard sampleStore sampleStore_filed (payToPubKey samplePubKey.vch)
    (payToPubKey samplePubKey.vch) (Or.inl ⟨by decide, rfl⟩)
    ⟨by decide, Or.inl (by decide), by decide⟩ hcollision sampleTx 0 (by decide) 1 (by decide)
  have henough : holdsEnough sampleScheme sampleStore
      (solver (payToPubKey samplePubKey.vch) []) = true := by decide
  rw [hsigned, henough]
  rfl

/-- `Solver` takes a public key that is pushed with a length byte of its own for a standard one,
and the standard flags refuse it. -/
theorem long_push_not_signed :
    (solver (0x4c :: 33 :: (samplePubKey.vch ++ [Script.opCheckSig])) []).whichType = .pubkey ∧
    holdsEnough sampleScheme sampleStore
      (solver (0x4c :: 33 :: (samplePubKey.vch ++ [Script.opCheckSig])) []) = true ∧
    (signSignature sampleHashes sampleScheme sampleStore
      (0x4c :: 33 :: (samplePubKey.vch ++ [Script.opCheckSig])) sampleTx 0 1).map Prod.fst =
        some false := by
  refine ⟨by decide, by decide, ?_⟩
  decide

end Scrypta.Signing
