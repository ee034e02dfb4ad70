import Scrypta.BlockSignature
import Scrypta.StandardRuns

/-! Signing an input of a transaction: `SignSignature` builds the script of the input from the keys
and scripts of a key store and runs it. -/

namespace Scrypta.Signing

open Interpreter (Hashes Context)
open Masternodes (CPubKey)
open Script (TxnOutType Solved solver)
open SignatureHash (CMutableTransaction signatureHash)

/-- The flags of a standard transaction. -/
def standardScriptVerifyFlags : BitVec 32 :=
  Interpreter.scriptVerifyP2SH ||| Interpreter.scriptVerifyDerSig |||
    Interpreter.scriptVerifyStrictEnc ||| Interpreter.scriptVerifyMinimalData |||
    Interpreter.scriptVerifyNullDummy ||| Interpreter.scriptVerifyDiscourageUpgradableNops

/-- A key store that has scripts, too. -/
structure CBasicKeyStore extends CKeyStore where
  getCScript : BitVec 160 → Option CScript

section Sign

variable (hashes : Hashes) (sch : Scheme)

/-- `CHashWriter::GetHash` of these bytes, and 1 where there are none. -/
def hashOf : Option Bytes → Uint256
  | none => 1
  | some ss => BitVec.ofNat 256 (LittleEndian.decode (hashes.hash256 ss))

/-- The conversion to a transaction computes its hash. -/
def toTransaction (tx : CMutableTransaction) : CTransaction :=
  { hash := hashOf hashes (some tx.serialize)
    nVersion := tx.nVersion
    vin := tx.vin
    vout := tx.vout
    nLockTime := tx.nLockTime }

def getSignatureHash (scriptCode : CScript) (txTo : CMutableTransaction) (nIn : ℕ)
    (nHashType : BitVec 32) : Uint256 :=
  hashOf hashes (signatureHash scriptCode (toTransaction hashes txTo) nIn nHashType)

/-- `CheckSig` of the checker for an input; the hash type is the last byte of the signature. -/
def checkSig (txTo : CMutableTransaction) (nIn : ℕ) (vchSigIn vchPubKey : Bytes)
    (scriptCode : CScript) : Bool :=
  if !isValid (pubKeyOf vchPubKey) then false
  else
    match vchSigIn.getLast? with
    | none => false
    | some back =>
      let nHashType := BitVec.ofNat 32 back.toNat
      verify sch (pubKeyOf vchPubKey) (getSignatureHash hashes scriptCode txTo nIn nHashType)
        vchSigIn.dropLast

/-- `VerifyScript` with the checker for an input. -/
def verifies (scriptSig scriptPubKey : CScript) (txTo : CMutableTransaction) (nIn : ℕ) : Bool :=
  match (Interpreter.verifyScript ⟨hashes, checkSig hashes sch txTo nIn, standardScriptVerifyFlags⟩
    scriptSig scriptPubKey).outcome with
  | .ok () => true
  | .error _ => false

/-- The signature with its hash type, where the key store has a key for the identifier. -/
def signatureFor (keystore : CBasicKeyStore) (address : BitVec 160) (hash : Uint256)
    (nHashType : BitVec 32) : Option Bytes :=
  (keystore.getKey address).bind fun key =>
    (signWith sch key hash).map (· ++ [UInt8.ofNat nHashType.toNat])

def sign1 (keystore : CBasicKeyStore) (address : BitVec 160) (hash : Uint256)
    (nHashType : BitVec 32) (scriptSigRet : CScript) : Bool × CScript :=
  match signatureFor sch keystore address hash nHashType with
  | none => (false, scriptSigRet)
  | some vchSig => (true, scriptSigRet ++ ScriptNum.pushData vchSig)

/-- The loop over the keys; it ends when there are enough signatures. -/
def signNLoop (keystore : CBasicKeyStore) (hash : Uint256) (nHashType : BitVec 32)
    (nRequired : ℕ) : List Bytes → ℕ → CScript → ℕ × CScript
  | [], nSigned, scriptSigRet => (nSigned, scriptSigRet)
  | pubkey :: rest, nSigned, scriptSigRet =>
    if nSigned < nRequired then
      let keyID := getID sch (pubKeyOf pubkey)
      let (ok, scriptSigRet) := sign1 sch keystore keyID hash nHashType scriptSigRet
      signNLoop keystore hash nHashType nRequired rest (if ok then nSigned + 1 else nSigned)
        scriptSigRet
    else (nSigned, scriptSigRet)

def signN (multisigdata : List Bytes) (keystore : CBasicKeyStore) (hash : Uint256)
    (nHashType : BitVec 32) (scriptSigRet : CScript) : Bool × CScript :=
  let nRequired := Script.firstByte multisigdata.head?
  let (nSigned, scriptSigRet) :=
    signNLoop sch keystore hash nHashType nRequired (multisigdata.drop 1).dropLast 0 scriptSigRet
  (nSigned == nRequired, scriptSigRet)

/-- What `Solver` with a key store returns, and the script and the type that it leaves behind. -/
structure SolverResult where
  ok : Bool
  scriptSigRet : CScript
  whichTypeRet : TxnOutType
  deriving DecidableEq, Repr

/-- The public key of the store, or the empty one that the caller hands in. -/
def getPubKey (keystore : CBasicKeyStore) (address : BitVec 160) : CPubKey :=
  match keystore.getKey address with
  | none => noPubKey
  | some key => sch.getPubKey key

/-- `Solver` with a key store; `none` is the exception on a hash of a wrong size. -/
def signSolver (keystore : CBasicKeyStore) (scriptPubKey : CScript) (hash : Uint256)
    (nHashType : BitVec 32) : Option SolverResult :=
  let solved := solver scriptPubKey []
  if !solved.ok then some ⟨false, [], solved.whichType⟩
  else
    match solved.whichType with
    | .nonstandard => some ⟨false, [], .nonstandard⟩
    | .nulldata => some ⟨false, [], .nulldata⟩
    | .pubkey =>
      solved.vSolutions[0]?.map fun vch =>
        let keyID := getID sch (pubKeyOf vch)
        let (ok, scriptSigRet) := sign1 sch keystore keyID hash nHashType []
        ⟨ok, scriptSigRet, .pubkey⟩
    | .pubkeyhash =>
      (solved.vSolutions[0]?.bind uint160Of).map fun keyID =>
        let (ok, scriptSigRet) := sign1 sch keystore keyID hash nHashType []
        if ok then
          ⟨true, scriptSigRet ++ ScriptNum.pushData (getPubKey sch keystore keyID).vch, .pubkeyhash⟩
        else ⟨false, scriptSigRet, .pubkeyhash⟩
    | .scripthash =>
      (solved.vSolutions[0]?.bind uint160Of).map fun scriptID =>
        match keystore.getCScript scriptID with
        | none => ⟨false, [], .scripthash⟩
        | some redeemScript => ⟨true, redeemScript, .scripthash⟩
    | .multisig =>
      let (ok, scriptSigRet) :=
        signN sch solved.vSolutions keystore hash nHashType [ScriptNum.op0]
      some ⟨ok, scriptSigRet, .multisig⟩

def setScriptSig (tx : CMutableTransaction) (nIn : ℕ) (scriptSig : CScript) :
    CMutableTransaction :=
  { tx with vin := tx.vin.modify nIn fun txin => { txin with scriptSig := scriptSig } }

/-- The result and the changed transaction; `none` is a failed assertion or an exception. -/
def signSignature (keystore : CBasicKeyStore) (fromPubKey : CScript) (txTo : CMutableTransaction)
    (nIn : ℕ) (nHashType : BitVec 32) : Option (Bool × CMutableTransaction) :=
  if txTo.vin.length ≤ nIn then none
  else
    -- Leave out the signature from the hash, since a signature can't sign itself.
    let hash := getSignatureHash hashes fromPubKey txTo nIn nHashType
    (signSolver sch keystore fromPubKey hash nHashType).bind fun r =>
      let txTo := setScriptSig txTo nIn r.scriptSigRet
      if !r.ok then some (false, txTo)
      else if r.whichTypeRet = .scripthash then
        let subscript := r.scriptSigRet
        let hash2 := getSignatureHash hashes subscript txTo nIn nHashType
        (signSolver sch keystore subscript hash2 nHashType).bind fun sub =>
          let fSolved := sub.ok && sub.whichTypeRet != .scripthash
          let scriptSig := sub.scriptSigRet ++ ScriptNum.pushData subscript
          let txTo := setScriptSig txTo nIn scriptSig
          if !fSolved then some (false, txTo)
          else some (verifies hashes sch scriptSig fromPubKey txTo nIn, txTo)
      else some (verifies hashes sch r.scriptSigRet fromPubKey txTo nIn, txTo)

end Sign

end Scrypta.Signing
