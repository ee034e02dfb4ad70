import Scrypta.BlockTree
import Scrypta.MasternodeTexts
import Scrypta.Solver
import Scrypta.Toolkit.LittleEndian

/-! The signature on a block: `SignBlock` picks a key for an output of the block, and
`CheckBlockSignature` picks the public key that has to agree with it. -/

namespace Scrypta.Signing

open Masternodes (CPubKey getLen)
open Script (TxnOutType solver)

/-- The default `CPubKey`. -/
def noPubKey : CPubKey := ⟨[], rfl⟩

/-- `CPubKey::Set`: bytes of any other length than their first one asks for are no key. -/
def pubKeyOf (vch : Bytes) : CPubKey :=
  if h : vch.length = vch.head?.elim 0 getLen then ⟨vch, h⟩ else noPubKey

def isValid (pubkey : CPubKey) : Bool := 0 < pubkey.vch.length

/-- The conversion of bytes to a `uint160`; `none` is the `uint_error` for a wrong size. -/
def uint160Of (vch : Bytes) : Option (BitVec 160) :=
  if vch.length = 20 then some (BitVec.ofNat 160 (LittleEndian.decode vch)) else none

structure CKey where
  fValid : Bool
  fCompressed : Bool
  vch : BitVec 256
  deriving DecidableEq, Repr

/-- The curve and the hash of public keys. `setPubKey` is the point that a public key encodes,
`secretPoint` the one that belongs to a private key. -/
structure Scheme where
  Point : Type
  hash160 : Bytes → BitVec 160
  setPubKey : CPubKey → Option Point
  secretPoint : CKey → Point
  getPubKey : CKey → CPubKey
  sign : CKey → Uint256 → Bytes
  verify : CPubKey → Uint256 → Bytes → Bool

/-- A signature is good for the encodings of the signer's point and for nothing else. -/
structure Scheme.Ideal (sch : Scheme) : Prop where
  sign_ne_nil : ∀ key hash, sch.sign key hash ≠ []
  verify_sign : ∀ pubkey key hash, isValid pubkey →
    (sch.verify pubkey hash (sch.sign key hash) = true ↔
      sch.setPubKey pubkey = some (sch.secretPoint key))
  setPubKey_getPubKey : ∀ key, key.fValid → sch.setPubKey (sch.getPubKey key) =
    some (sch.secretPoint key)
  isValid_getPubKey : ∀ key, key.fValid → isValid (sch.getPubKey key)

/-- `GetKey` of a key store. -/
structure CKeyStore where
  getKey : BitVec 160 → Option CKey

section Blocks

variable (sch : Scheme)

def getID (pubkey : CPubKey) : BitVec 160 := sch.hash160 pubkey.vch

def signWith (key : CKey) (hash : Uint256) : Option Bytes :=
  if key.fValid then some (sch.sign key hash) else none

def verify (pubkey : CPubKey) (hash : Uint256) (vchSig : Bytes) : Bool :=
  isValid pubkey && sch.verify pubkey hash vchSig

/-- `AddKey` files a key under the identifier of its own public key. -/
def CKeyStore.addKey (keystore : CKeyStore) (key : CKey) : CKeyStore :=
  ⟨fun keyID =>
    if keyID = getID sch (sch.getPubKey key) then some key else keystore.getKey keyID⟩

def Scheme.signedBlock (key : CKey) (block : CBlock) : CBlock :=
  { block with vchBlockSig := sch.sign key block.getHash }

/-- What a call does to a block: its result and the block that it leaves behind. -/
abbrev Signed := Bool × CBlock

/-- The key for an identifier is fetched and the block signed with it. -/
def signFor (keystore : CKeyStore) (block : CBlock) (keyID : BitVec 160) : Signed :=
  match keystore.getKey keyID with
  | none => (false, block)
  | some key =>
    match signWith sch key block.getHash with
    | none => (false, block)
    | some vchSig => (true, { block with vchBlockSig := vchSig })

/-- The loop over the outputs of the coinbase; `none` is the exception on a solution that is
not 20 bytes long. -/
def signCoinBase (keystore : CKeyStore) (block : CBlock) :
    List CTxOut → List Bytes → Option Signed
  | [], _ => some (false, block)
  | txout :: rest, vSolutions =>
    let solved := solver txout.scriptPubKey vSolutions
    if solved.ok && solved.whichType == .pubkey then
      (solved.vSolutions[0]?.bind uint160Of).map (signFor sch keystore block)
    else signCoinBase keystore block rest solved.vSolutions

/-- `vtx[1].vout[1]` -/
def stakeOutput (block : CBlock) : Option CTxOut := block.vtx[1]?.bind (·.vout[1]?)

/-- `none` is an exception or a read outside of `vtx`, `vout` or `vSolutions`. -/
def signBlock (keystore : CKeyStore) (block : CBlock) : Option Signed :=
  if !block.isProofOfStake then
    block.vtx[0]?.bind fun tx => signCoinBase sch keystore block tx.vout []
  else
    (stakeOutput block).bind fun txout =>
      let solved := solver txout.scriptPubKey []
      if !solved.ok then some (false, block)
      else
        match solved.whichType with
        | .pubkeyhash =>
          (solved.vSolutions[0]?.bind uint160Of).map (signFor sch keystore block)
        | .pubkey =>
          solved.vSolutions[0]?.map fun vch =>
            signFor sch keystore block (getID sch (pubKeyOf vch))
        | _ => some (false, block)

/-- The last steps for both kinds of output: the solution is read as a public key. -/
def checkWith (block : CBlock) (vchPubKey : Bytes) : Bool :=
  if !isValid (pubKeyOf vchPubKey) then false
  else if block.vchBlockSig.isEmpty then false
  else verify sch (pubKeyOf vchPubKey) block.getHash block.vchBlockSig

def checkBlockSignature (block : CBlock) : Option Bool :=
  if block.isProofOfWork then some block.vchBlockSig.isEmpty
  else
    (stakeOutput block).bind fun txout =>
      let solved := solver txout.scriptPubKey []
      if !solved.ok then some false
      else
        match solved.whichType with
        | .pubkey => solved.vSolutions[0]?.map (checkWith sch block)
        | .pubkeyhash =>
          solved.vSolutions[0]?.bind fun vchPubKey =>
            (uint160Of vchPubKey).map fun _ => checkWith sch block vchPubKey
        | _ => some false

/-- What this node signs, this node accepts. -/
def SignedAccepted (keystore : CKeyStore) (block : CBlock) : Prop :=
  ∀ signed, signBlock sch keystore block = some (true, signed) →
    checkBlockSignature sch signed = some true

/-- The first solution of the script of `vtx[1].vout[1]`, where `Solver` finds this type. -/
def stakeSolution (block : CBlock) (whichType : TxnOutType) : Option Bytes :=
  (stakeOutput block).bind fun txout =>
    let solved := solver txout.scriptPubKey []
    if solved.ok && solved.whichType == whichType then solved.vSolutions[0]? else none

/-- The stake goes to the hash of a key that the store has. -/
def StakesToKeyHash (keystore : CKeyStore) (block : CBlock) : Prop :=
  block.isProofOfStake ∧ ∃ hash keyID, stakeSolution block .pubkeyhash = some hash ∧
    uint160Of hash = some keyID ∧ (keystore.getKey keyID).isSome

/-- The stake goes to a public key under whose identifier the store has another key: it was
filed under a wrong identifier, or two public keys have one hash. -/
def StakesToForeignKey (keystore : CKeyStore) (block : CBlock) : Prop :=
  block.isProofOfStake ∧ ∃ vch key, stakeSolution block .pubkey = some vch ∧
    keystore.getKey (getID sch (pubKeyOf vch)) = some key ∧
    ¬(isValid (pubKeyOf vch) ∧ sch.setPubKey (pubKeyOf vch) = some (sch.secretPoint key))

end Blocks

theorem length_of_uint160Of {vch : Bytes} {keyID : BitVec 160} (h : uint160Of vch = some keyID) :
    vch.length = 20 := by
  unfold uint160Of at h
  split_ifs at h with hlen
  exact hlen

theorem uint160Of_of_length {vch : Bytes} (h : vch.length = 20) : ∃ id, uint160Of vch = some id :=
  ⟨_, if_pos h⟩

theorem uint160Of_of_key {vch : Bytes} (h : 33 ≤ vch.length) : uint160Of vch = none :=
  if_neg (by omega)

/-- A key hash is never as long as the public key that its first byte announces. -/
theorem isValid_of_hash {vch : Bytes} (h : vch.length = 20) : isValid (pubKeyOf vch) = false := by
  have hlen : ∀ c : UInt8, getLen c ≠ 20 := by
    intro c
    unfold getLen
    split_ifs <;> decide
  have hne : ¬vch.length = vch.head?.elim 0 getLen := by
    cases vch with
    | nil => cases h
    | cons c vch => exact fun heq => hlen c (heq.symm.trans h)
  rw [pubKeyOf, dif_neg hne]
  rfl

section Agreement

variable {sch : Scheme} {keystore : CKeyStore} {block : CBlock}

theorem checkWith_of_hash {vch : Bytes} (h : vch.length = 20) :
    checkWith sch block vch = false := by
  rw [checkWith, isValid_of_hash h]
  rfl

theorem signFor_of_some {keyID : BitVec 160} {key : CKey} (h : keystore.getKey keyID = some key)
    (hvalid : key.fValid) :
    signFor sch keystore block keyID =
      (true, sch.signedBlock key block) := by
  simp only [signFor, h, signWith, hvalid, if_true]
  rfl

/-- The coinbase branch converts a whole public key to a key hash, which is never one. -/
theorem signCoinBase_ne_true (vout : List CTxOut) (vSolutions : List Bytes) (signed : CBlock) :
    signCoinBase sch keystore block vout vSolutions ≠ some (true, signed) := by
  induction vout generalizing vSolutions with
  | nil => simp [signCoinBase]
  | cons txout rest ih =>
    rw [signCoinBase]
    split_ifs with hkey
    · have htype : (solver txout.scriptPubKey vSolutions).whichType = .pubkey :=
        beq_iff_eq.mp (Bool.and_eq_true_iff.mp hkey).2
      obtain ⟨key, hget, hlen, -⟩ := Script.solver_pubkey htype
      rw [hget, Option.bind_some, uint160Of_of_key hlen]
      exact nofun
    · exact ih _

theorem signBlock_work (h : block.isProofOfStake = false) (signed : CBlock) :
    signBlock sch keystore block ≠ some (true, signed) := by
  rw [signBlock, h, Bool.not_false, if_pos rfl]
  cases block.vtx[0]? with
  | none => exact nofun
  | some tx => exact signCoinBase_ne_true tx.vout [] signed

theorem stakeSolution_eq_some {whichType : TxnOutType} {vch : Bytes}
    (h : stakeSolution block whichType = some vch) :
    ∃ txout, stakeOutput block = some txout ∧ (solver txout.scriptPubKey []).ok = true ∧
      (solver txout.scriptPubKey []).whichType = whichType ∧
      (solver txout.scriptPubKey []).vSolutions[0]? = some vch := by
  obtain ⟨txout, hout, h⟩ := Option.bind_eq_some_iff.mp h
  dsimp only at h
  split_ifs at h with hsolved
  obtain ⟨hok, htype⟩ := Bool.and_eq_true_iff.mp hsolved
  exact ⟨txout, hout, hok, beq_iff_eq.mp htype, h⟩

theorem stakeSolution_of_solved {txout : CTxOut} {whichType : TxnOutType}
    (hout : stakeOutput block = some txout) (hok : (solver txout.scriptPubKey []).ok = true)
    (htype : (solver txout.scriptPubKey []).whichType = whichType) :
    stakeSolution block whichType = (solver txout.scriptPubKey []).vSolutions[0]? := by
  simp only [stakeSolution, hout, Option.bind_some, hok, htype, beq_self_eq_true,
    Bool.and_self, if_true]

theorem length_of_stakeSolution {vch : Bytes} (h : stakeSolution block .pubkeyhash = some vch) :
    vch.length = 20 := by
  obtain ⟨txout, -, -, htype, hget⟩ := stakeSolution_eq_some h
  obtain ⟨hash, hhash, hlen⟩ := Script.solver_pubkeyhash htype
  cases hget.symm.trans hhash
  exact hlen

/-- The two ways to sign a proof-of-stake block. -/
theorem signBlock_stake (hstake : block.isProofOfStake = true) {signed : CBlock}
    (h : signBlock sch keystore block = some (true, signed)) :
    (∃ hash keyID, stakeSolution block .pubkeyhash = some hash ∧
      uint160Of hash = some keyID ∧ signFor sch keystore block keyID = (true, signed)) ∨
    ∃ vch, stakeSolution block .pubkey = some vch ∧
      signFor sch keystore block (getID sch (pubKeyOf vch)) = (true, signed) := by
  rw [signBlock, hstake, Bool.not_true, if_neg Bool.false_ne_true] at h
  obtain ⟨txout, hout, h⟩ := Option.bind_eq_some_iff.mp h
  dsimp only at h
  split_ifs at h with hok
  · cases h
  · have hok : (solver txout.scriptPubKey []).ok = true := by simpa using hok
    split at h
    next htype =>
      obtain ⟨keyID, hid, hsign⟩ := Option.map_eq_some_iff.mp h
      obtain ⟨hash, hget, hid⟩ := Option.bind_eq_some_iff.mp hid
      exact .inl ⟨hash, keyID, (stakeSolution_of_solved hout hok htype).trans hget, hid, hsign⟩
    next htype =>
      obtain ⟨vch, hget, hsign⟩ := Option.map_eq_some_iff.mp h
      exact .inr ⟨vch, (stakeSolution_of_solved hout hok htype).trans hget, hsign⟩
    next => cases h

theorem signBlock_of_hash (sch : Scheme) (keystore : CKeyStore)
    (hstake : block.isProofOfStake = true) {hash : Bytes} {keyID : BitVec 160}
    (h : stakeSolution block .pubkeyhash = some hash) (hid : uint160Of hash = some keyID) :
    signBlock sch keystore block = some (signFor sch keystore block keyID) := by
  obtain ⟨txout, hout, hok, htype, hget⟩ := stakeSolution_eq_some h
  rw [signBlock, hstake, Bool.not_true, if_neg Bool.false_ne_true, hout, Option.bind_some]
  simp only [hok, htype, hget, hid, Bool.not_true, Bool.false_eq_true, if_false,
    Option.bind_some, Option.map_some]

theorem signBlock_of_key (sch : Scheme) (keystore : CKeyStore)
    (hstake : block.isProofOfStake = true) {vch : Bytes}
    (h : stakeSolution block .pubkey = some vch) :
    signBlock sch keystore block =
      some (signFor sch keystore block (getID sch (pubKeyOf vch))) := by
  obtain ⟨txout, hout, hok, htype, hget⟩ := stakeSolution_eq_some h
  rw [signBlock, hstake, Bool.not_true, if_neg Bool.false_ne_true, hout, Option.bind_some]
  simp only [hok, htype, hget, Bool.not_true, Bool.false_eq_true, if_false, Option.map_some]

theorem isProofOfWork_of_stake (hstake : block.isProofOfStake = true) :
    block.isProofOfWork = false := by
  rw [CBlock.isProofOfWork, hstake]
  rfl

theorem checkBlockSignature_of_key (sch : Scheme) (block : CBlock)
    (hstake : block.isProofOfStake = true) {vch : Bytes}
    (h : stakeSolution block .pubkey = some vch) :
    checkBlockSignature sch block = some (checkWith sch block vch) := by
  obtain ⟨txout, hout, hok, htype, hget⟩ := stakeSolution_eq_some h
  rw [checkBlockSignature, isProofOfWork_of_stake hstake, if_neg Bool.false_ne_true, hout,
    Option.bind_some]
  simp only [hok, htype, hget, Bool.not_true, Bool.false_eq_true, if_false, Option.map_some]

/-- A signature for a key hash is refused, whatever it is: the hash is taken for the key. -/
theorem checkBlockSignature_of_hash (sch : Scheme) (block : CBlock)
    (hstake : block.isProofOfStake = true) {hash : Bytes}
    (h : stakeSolution block .pubkeyhash = some hash) :
    checkBlockSignature sch block = some false := by
  have hlen := length_of_stakeSolution h
  obtain ⟨keyID, hid⟩ := uint160Of_of_length hlen
  obtain ⟨txout, hout, hok, htype, hget⟩ := stakeSolution_eq_some h
  rw [checkBlockSignature, isProofOfWork_of_stake hstake, if_neg Bool.false_ne_true, hout,
    Option.bind_some]
  simp only [hok, htype, hget, hid, Bool.not_true, Bool.false_eq_true, if_false,
    Option.bind_some, Option.map_some, checkWith_of_hash hlen]

/-- The signature of a stored key is good for exactly the encodings of that key's point. -/
theorem checkWith_signed (hideal : sch.Ideal) (key : CKey) (vch : Bytes) :
    checkWith sch (sch.signedBlock key block) vch = true ↔
      isValid (pubKeyOf vch) ∧ sch.setPubKey (pubKeyOf vch) = some (sch.secretPoint key) := by
  cases hvalid : isValid (pubKeyOf vch) with
  | false => simp [checkWith, hvalid]
  | true =>
    have hne : (sch.signedBlock key block).vchBlockSig.isEmpty = false :=
      List.isEmpty_eq_false_iff.mpr (hideal.sign_ne_nil key block.getHash)
    have hverify := hideal.verify_sign (pubKeyOf vch) key block.getHash hvalid
    simp only [checkWith, hvalid, hne, verify, Bool.not_true, Bool.false_eq_true, if_false,
      Bool.true_and, true_and]
    exact hverify

/-- A stored key that signs through an identifier signs for the stake at that identifier. -/
theorem signFor_eq_true {keyID : BitVec 160} {signed : CBlock}
    (h : signFor sch keystore block keyID = (true, signed)) :
    ∃ key, keystore.getKey keyID = some key ∧
      signed = sch.signedBlock key block := by
  unfold signFor signWith at h
  cases hget : keystore.getKey keyID with
  | none => simp [hget] at h
  | some key =>
    cases hvalid : key.fValid with
    | false => simp [hget, hvalid] at h
    | true =>
      simp only [hget, hvalid, if_true] at h
      exact ⟨key, rfl, (Prod.mk.inj h).2.symm⟩

end Agreement

/-- A block that this node signs with a valid key is one that it accepts, unless the stake goes
to a key hash or to a public key that is not the stored one's. -/
theorem signed_block_accepted_iff {sch : Scheme} (hideal : sch.Ideal) {keystore : CKeyStore}
    (hvalid : ∀ keyID key, keystore.getKey keyID = some key → key.fValid) (block : CBlock) :
    SignedAccepted sch keystore block ↔
      ¬StakesToKeyHash keystore block ∧ ¬StakesToForeignKey sch keystore block := by
  constructor
  · intro h
    constructor
    · intro ⟨hstake, hash, keyID, hhash, hid, hkey⟩
      obtain ⟨key, hkey⟩ := Option.isSome_iff_exists.mp hkey
      have hsign := signBlock_of_hash sch keystore hstake hhash hid
      rw [signFor_of_some hkey (hvalid _ _ hkey)] at hsign
      have hrefused := checkBlockSignature_of_hash sch (sch.signedBlock key block) hstake hhash
      cases (h _ hsign).symm.trans hrefused
    · intro ⟨hstake, vch, key, hvch, hkey, hforeign⟩
      have hsign := signBlock_of_key sch keystore hstake hvch
      rw [signFor_of_some hkey (hvalid _ _ hkey)] at hsign
      have hchecked := checkBlockSignature_of_key sch (sch.signedBlock key block) hstake hvch
      have haccepted := Option.some.inj (hchecked.symm.trans (h _ hsign))
      exact hforeign ((checkWith_signed hideal key vch).mp haccepted)
  · intro ⟨hhash, hforeign⟩ signed hsigned
    cases hstake : block.isProofOfStake with
    | false => exact absurd hsigned (signBlock_work hstake signed)
    | true =>
      rcases signBlock_stake hstake hsigned with
        ⟨hash, keyID, hsol, hid, hsign⟩ | ⟨vch, hsol, hsign⟩
      · obtain ⟨key, hkey, -⟩ := signFor_eq_true hsign
        exact absurd ⟨hstake, hash, keyID, hsol, hid, Option.isSome_iff_exists.mpr ⟨key, hkey⟩⟩
          hhash
      · obtain ⟨key, hkey, rfl⟩ := signFor_eq_true hsign
        have hown : isValid (pubKeyOf vch) ∧
            sch.setPubKey (pubKeyOf vch) = some (sch.secretPoint key) := by
          by_contra hnot
          exact hforeign ⟨hstake, vch, key, hsol, hkey, hnot⟩
        have hchecked := checkBlockSignature_of_key sch (sch.signedBlock key block) hstake hsol
        exact hchecked.trans (congrArg some ((checkWith_signed hideal key vch).mpr hown))

/-! A scheme in which a public key shows its private key. -/

def openKey (key : CKey) : CPubKey := pubKeyOf (2 :: LittleEndian.encode 32 key.vch.toNat)

def openPoint (pubkey : CPubKey) : Option (BitVec 256) :=
  match pubkey.vch with
  | [] => none
  | _ :: vch => some (BitVec.ofNat 256 (LittleEndian.decode vch))

def openSign (point : BitVec 256) (hash : Uint256) : Bytes :=
  0x30 :: (LittleEndian.encode 32 point.toNat ++ LittleEndian.encode 32 hash.toNat)

def openScheme : Scheme where
  Point := BitVec 256
  hash160 vch := BitVec.ofNat 160 (LittleEndian.decode (vch.drop 1))
  setPubKey := openPoint
  secretPoint key := key.vch
  getPubKey := openKey
  sign key hash := openSign key.vch hash
  verify pubkey hash vchSig :=
    (openPoint pubkey).any fun point => vchSig == openSign point hash

theorem encode_toNat_inj {x y : BitVec 256}
    (h : LittleEndian.encode 32 x.toNat = LittleEndian.encode 32 y.toNat) : x = y := by
  have hdecode := congrArg LittleEndian.decode h
  rw [LittleEndian.decode_encode_of_lt x.isLt, LittleEndian.decode_encode_of_lt y.isLt] at hdecode
  exact BitVec.eq_of_toNat_eq hdecode

theorem vch_openKey (key : CKey) :
    (openKey key).vch = 2 :: LittleEndian.encode 32 key.vch.toNat := by
  have hlen : (2 :: LittleEndian.encode 32 key.vch.toNat).length =
      (2 :: LittleEndian.encode 32 key.vch.toNat).head?.elim 0 getLen := by
    rw [List.length_cons, LittleEndian.length_encode]
    rfl
  rw [openKey, pubKeyOf, dif_pos hlen]

theorem openSign_inj {x y : BitVec 256} {hash : Uint256} (h : openSign x hash = openSign y hash) :
    x = y :=
  encode_toNat_inj (List.append_inj_left (List.cons.inj h).2 (by simp))

theorem openScheme_ideal : openScheme.Ideal where
  sign_ne_nil _ _ := List.cons_ne_nil _ _
  verify_sign pubkey key hash _ := by
    change ((openPoint pubkey).any fun point => openSign key.vch hash == openSign point hash) =
      true ↔ openPoint pubkey = some key.vch
    cases openPoint pubkey with
    | none => simp
    | some point =>
      rw [Option.any_some, beq_iff_eq, Option.some.injEq]
      exact ⟨fun h => (openSign_inj h).symm, fun h => by rw [h]⟩
  setPubKey_getPubKey key _ := by
    change openPoint (openKey key) = some key.vch
    rw [openPoint, vch_openKey]
    dsimp only
    rw [LittleEndian.decode_encode_of_lt key.vch.isLt, BitVec.ofNat_toNat, BitVec.setWidth_eq]
  isValid_getPubKey key _ := by
    change decide (0 < (openKey key).vch.length) = true
    rw [vch_openKey]
    rfl

def stakingKey : CKey := ⟨true, true, 7⟩

def stakingStore : CKeyStore := CKeyStore.addKey openScheme ⟨fun _ => none⟩ stakingKey

theorem stakingStore_valid {keyID : BitVec 160} {key : CKey}
    (h : stakingStore.getKey keyID = some key) : key.fValid := by
  change (if keyID = getID openScheme (openKey stakingKey) then some stakingKey else none) = _ at h
  split_ifs at h
  cases h
  rfl

/-- A proof-of-stake block whose stake goes to this script. -/
def stakingBlock (scriptPubKey : CScript) : CBlock :=
  { hash := 5, hashPrevBlock := 4, nTime := 0, nBits := 0
    vtx := [⟨1, 1, [{ prevout := .null }], [⟨0, [], -10⟩], 0⟩,
      ⟨2, 1, [{ prevout := ⟨3, 1⟩ }], [⟨0, [], -10⟩, ⟨10, scriptPubKey, -10⟩], 0⟩] }

def keyHashScript (hash : Bytes) : CScript :=
  [Script.opDup, Script.opHash160, 20] ++ hash ++ [Script.opEqualVerify, Script.opCheckSig]

def publicKeyScript (vch : Bytes) : CScript := [33] ++ vch ++ [Script.opCheckSig]

/-- The node signs a stake that goes to the hash of its own key, and refuses the block. -/
theorem key_hash_stake_refused :
    signBlock openScheme stakingStore
        (stakingBlock (keyHashScript (LittleEndian.encode 20 7))) =
      some (true, openScheme.signedBlock stakingKey
        (stakingBlock (keyHashScript (LittleEndian.encode 20 7)))) ∧
    checkBlockSignature openScheme (openScheme.signedBlock stakingKey
      (stakingBlock (keyHashScript (LittleEndian.encode 20 7)))) = some false ∧
    ¬SignedAccepted openScheme stakingStore
      (stakingBlock (keyHashScript (LittleEndian.encode 20 7))) := by
  have hsigned : signBlock openScheme stakingStore
      (stakingBlock (keyHashScript (LittleEndian.encode 20 7))) =
        some (true, openScheme.signedBlock stakingKey
          (stakingBlock (keyHashScript (LittleEndian.encode 20 7)))) := by
    decide
  have hrefused : checkBlockSignature openScheme (openScheme.signedBlock stakingKey
      (stakingBlock (keyHashScript (LittleEndian.encode 20 7)))) = some false := by
    decide
  exact ⟨hsigned, hrefused, fun h => nomatch hrefused.symm.trans (h _ hsigned)⟩

/-- The same key stakes to its public key. -/
theorem signed_block_accepted_iff_sample :
    (signBlock openScheme stakingStore
      (stakingBlock (publicKeyScript (openKey stakingKey).vch))).map Prod.fst = some true ∧
    (SignedAccepted openScheme stakingStore
        (stakingBlock (publicKeyScript (openKey stakingKey).vch)) ↔
      ¬StakesToKeyHash stakingStore
          (stakingBlock (publicKeyScript (openKey stakingKey).vch)) ∧
        ¬StakesToForeignKey openScheme stakingStore
          (stakingBlock (publicKeyScript (openKey stakingKey).vch))) :=
  ⟨by decide,
    signed_block_accepted_iff openScheme_ideal (fun _ _ h => stakingStore_valid h) _⟩

end Scrypta.Signing
