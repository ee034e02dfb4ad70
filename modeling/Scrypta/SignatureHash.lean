import Scrypta.ScriptParse
import Scrypta.Toolkit.CompactSize

/-! The bytes whose hash a signature signs. The node writes them out straight from the
transaction; the reference changes a copy of the transaction and serializes that. -/

namespace Scrypta.SignatureHash

open Script LittleEndian

def opCodeSeparator : UInt8 := 0xab

def sighashNone : BitVec 32 := 2
def sighashSingle : BitVec 32 := 3
def sighashAnyoneCanPay : BitVec 32 := 0x80

/-- A signed integer of `width` bytes. -/
def encodeInt (width : ℕ) (x : ℤ) : Bytes := encode width (x % 256 ^ width).toNat

section Serialize

def serializeScript (script : CScript) : Bytes := CompactSize.write script.length ++ script

def serializeOutPoint (o : COutPoint) : Bytes := encode 32 o.hash.toNat ++ encode 4 o.n.toNat

def serializeTxIn (txin : CTxIn) : Bytes :=
  serializeOutPoint txin.prevout ++ serializeScript txin.scriptSig ++
    encode 4 txin.nSequence.toNat

def serializeTxOut (txout : CTxOut) : Bytes :=
  encodeInt 8 txout.nValue ++ serializeScript txout.scriptPubKey

structure CMutableTransaction where
  nVersion : ℤ
  vin : List CTxIn
  vout : List CTxOut
  nLockTime : BitVec 32

def CMutableTransaction.serialize (tx : CMutableTransaction) : Bytes :=
  encodeInt 4 tx.nVersion ++ CompactSize.writeVector serializeTxIn tx.vin ++
    CompactSize.writeVector serializeTxOut tx.vout ++ encode 4 tx.nLockTime.toNat

end Serialize

/-- The wrapper that serializes a transaction with the modifications made in place. -/
structure CTransactionSignatureSerializer where
  txTo : CTransaction
  scriptCode : CScript
  nIn : ℕ
  fAnyoneCanPay : Bool
  fHashSingle : Bool
  fHashNone : Bool

namespace CTransactionSignatureSerializer

def create (txTo : CTransaction) (scriptCode : CScript) (nIn : ℕ) (nHashType : BitVec 32) :
    CTransactionSignatureSerializer :=
  { txTo := txTo
    scriptCode := scriptCode
    nIn := nIn
    fAnyoneCanPay := nHashType &&& sighashAnyoneCanPay != 0
    fHashSingle := nHashType &&& 0x1f == sighashSingle
    fHashNone := nHashType &&& 0x1f == sighashNone }

def countCodeSeparators (scriptCode : CScript) : ℕ :=
  (operations scriptCode).countP fun op => op.opcode == opCodeSeparator

/-- The second loop: the bytes between the separators are written. `itBegin` is where they begin;
the last of them end where `GetOp` leaves `it`. -/
def writeSegments : ℕ → CScript → CScript → Bytes
  | 0, _, _ => []
  | turns + 1, it, itBegin =>
    let op := getOp2 it
    if op.ok then
      if op.opcode = opCodeSeparator then
        itBegin.take (itBegin.length - op.pc.length - 1) ++ writeSegments turns op.pc op.pc
      else writeSegments turns op.pc itBegin
    else if itBegin ≠ [] then itBegin.take (itBegin.length - op.pc.length)
    else []

/-- The script code without its separators. -/
def serializeScriptCode (scriptCode : CScript) : Bytes :=
  CompactSize.write (scriptCode.length - countCodeSeparators scriptCode) ++
    writeSegments (scriptCode.length + 1) scriptCode scriptCode

/-- An input; the signature hash is not computed where there is none. -/
def serializeInput (t : CTransactionSignatureSerializer) (nInput : ℕ) : Bytes :=
  let nInput := if t.fAnyoneCanPay then t.nIn else nInput
  match t.txTo.vin[nInput]? with
  | none => []
  | some txin =>
    serializeOutPoint txin.prevout ++
      (if nInput ≠ t.nIn then serializeScript [] else serializeScriptCode t.scriptCode) ++
      (if nInput ≠ t.nIn ∧ (t.fHashSingle ∨ t.fHashNone) then encode 4 0
      else encode 4 txin.nSequence.toNat)

def serializeOutput (t : CTransactionSignatureSerializer) (nOutput : ℕ) : Bytes :=
  if t.fHashSingle ∧ nOutput ≠ t.nIn then serializeTxOut CTxOut.null
  else
    match t.txTo.vout[nOutput]? with
    | none => []
    | some txout => serializeTxOut txout

def serialize (t : CTransactionSignatureSerializer) : Bytes :=
  let nInputs := if t.fAnyoneCanPay then 1 else t.txTo.vin.length
  let nOutputs :=
    if t.fHashNone then 0 else if t.fHashSingle then t.nIn + 1 else t.txTo.vout.length
  encodeInt 4 t.txTo.nVersion ++
    CompactSize.write nInputs ++ (List.range nInputs).flatMap t.serializeInput ++
    CompactSize.write nOutputs ++ (List.range nOutputs).flatMap t.serializeOutput ++
    encode 4 t.txTo.nLockTime.toNat

end CTransactionSignatureSerializer

/-- The bytes that `SignatureHash` hashes; `none` where it returns 1. -/
def signatureHash (scriptCode : CScript) (txTo : CTransaction) (nIn : ℕ) (nHashType : BitVec 32) :
    Option Bytes :=
  if txTo.vin.length ≤ nIn then none
  else if nHashType &&& 0x1f = sighashSingle ∧ txTo.vout.length ≤ nIn then none
  else
    let txTmp := CTransactionSignatureSerializer.create txTo scriptCode nIn nHashType
    some (txTmp.serialize ++ encode 4 nHashType.toNat)

section Reference

/-- Let the others update at will. -/
def releaseSequences (nIn : ℕ) (vin : List CTxIn) : List CTxIn :=
  vin.mapIdx fun i txin => if i ≠ nIn then { txin with nSequence := 0 } else txin

/-- The changes for the hash types `NONE` and `SINGLE`; `none` where there is no output for the
input. -/
def blankOutputs (txTmp : CMutableTransaction) (nIn : ℕ) (nHashType : BitVec 32) :
    Option CMutableTransaction :=
  if nHashType &&& 0x1f = sighashNone then
    some { txTmp with vout := [], vin := releaseSequences nIn txTmp.vin }
  else if nHashType &&& 0x1f = sighashSingle then
    if txTmp.vout.length ≤ nIn then none
    else
      let vout := (txTmp.vout.take (nIn + 1)).mapIdx fun i txout =>
        if i < nIn then CTxOut.null else txout
      some { txTmp with vout := vout, vin := releaseSequences nIn txTmp.vin }
  else some txTmp

/-- Blank out other inputs completely. -/
def keepOneInput (txTmp : CMutableTransaction) (nIn : ℕ) (nHashType : BitVec 32) :
    CMutableTransaction :=
  if nHashType &&& sighashAnyoneCanPay ≠ 0 then
    match txTmp.vin[nIn]? with
    | none => txTmp
    | some txin => { txTmp with vin := (txTmp.vin.set 0 txin).take 1 }
  else txTmp

/-- The bytes that `SignatureHashOld` hashes; `none` where it returns 1. -/
def signatureHashOld (scriptCode : CScript) (txTo : CTransaction) (nIn : ℕ)
    (nHashType : BitVec 32) : Option Bytes :=
  if txTo.vin.length ≤ nIn then none
  else
    let scriptCode := (findAndDelete scriptCode [opCodeSeparator]).1
    let vin := txTo.vin.map fun txin => { txin with scriptSig := [] }
    let vin := vin.modify nIn fun txin => { txin with scriptSig := scriptCode }
    let txTmp : CMutableTransaction := ⟨txTo.nVersion, vin, txTo.vout, txTo.nLockTime⟩
    (blankOutputs txTmp nIn nHashType).map fun txTmp =>
      (keepOneInput txTmp nIn nHashType).serialize ++ encode 4 nHashType.toNat

end Reference

/-! The script code. -/

/-- The script without the operations that are separators. -/
def withoutSeparators (pc : CScript) : Bytes :=
  if _h : (getOp2 pc).ok = true then
    (if (getOp2 pc).opcode = opCodeSeparator then [] else rawOp pc) ++
      withoutSeparators (getOp2 pc).pc
  else pc
termination_by pc.length
decreasing_by exact length_getOp2_lt (ne_nil_of_getOp2_ok _h)

theorem withoutSeparators_of_ok {pc : CScript} (h : (getOp2 pc).ok = true) :
    withoutSeparators pc =
      (if (getOp2 pc).opcode = opCodeSeparator then [] else rawOp pc) ++
        withoutSeparators (getOp2 pc).pc := by
  rw [withoutSeparators, dif_pos h]

theorem withoutSeparators_of_not_ok {pc : CScript} (h : (getOp2 pc).ok ≠ true) :
    withoutSeparators pc = pc := by
  rw [withoutSeparators, dif_neg h]

theorem getOp2_separator (pc : CScript) :
    getOp2 (opCodeSeparator :: pc) = ⟨true, opCodeSeparator, [], pc⟩ :=
  getOp2_of_lt (by decide) pc

theorem withoutSeparators_separator (pc : CScript) :
    withoutSeparators (opCodeSeparator :: pc) = withoutSeparators pc := by
  have hop := getOp2_separator pc
  rw [withoutSeparators_of_ok (by rw [hop]), hop, if_pos rfl, List.nil_append]

/-- A script that an operation begins with a separator begins with it. -/
theorem eq_separator {pc : CScript} (h : (getOp2 pc).ok = true)
    (hop : (getOp2 pc).opcode = opCodeSeparator) : pc = opCodeSeparator :: (getOp2 pc).pc := by
  cases pc with
  | nil => exact Bool.noConfusion h
  | cons opcode pc =>
    have hopcode : opcode = opCodeSeparator := (opcode_of_ok h).symm.trans hop
    rw [hopcode, getOp2_separator]

theorem eraseCopies_separator (turns : ℕ) (pc : CScript) :
    withoutSeparators (eraseCopies [opCodeSeparator] turns pc).1 = withoutSeparators pc ∧
      (eraseCopies [opCodeSeparator] turns pc).1.length ≤ pc.length ∧
      (pc.length ≤ turns →
        (eraseCopies [opCodeSeparator] turns pc).1.head? ≠ some opCodeSeparator) := by
  induction turns generalizing pc with
  | zero =>
    refine ⟨rfl, Nat.le_refl _, fun hle => ?_⟩
    have hnil : pc = [] := List.eq_nil_of_length_eq_zero (Nat.le_zero.1 hle)
    simp [hnil, eraseCopies]
  | succ turns ih =>
    cases pc with
    | nil => exact ⟨rfl, Nat.le_refl _, fun _ => by simp [eraseCopies]⟩
    | cons opcode pc =>
      unfold eraseCopies
      by_cases hop : opcode = opCodeSeparator
      · subst hop
        rw [if_pos (by simp)]
        obtain ⟨hsame, hlen, hhead⟩ := ih pc
        refine ⟨hsame.trans (withoutSeparators_separator pc).symm, ?_, ?_⟩
        · exact Nat.le_trans hlen (Nat.le_succ _)
        · intro hle
          exact hhead (Nat.le_of_succ_le_succ hle)
      · rw [if_neg (by simp [Ne.symm hop])]
        refine ⟨rfl, Nat.le_refl _, fun _ hhead => hop ?_⟩
        exact Option.some.inj hhead

theorem findAndDeleteLoop_separator {turns : ℕ} {pc : CScript} (h : pc.length < turns) :
    (findAndDeleteLoop [opCodeSeparator] turns pc).1 = withoutSeparators pc := by
  induction turns generalizing pc with
  | zero => exact absurd h (Nat.not_lt_zero _)
  | succ turns ih =>
    obtain ⟨hsame, hlen, hhead⟩ := eraseCopies_separator pc.length pc
    have hhead := hhead (Nat.le_refl _)
    unfold findAndDeleteLoop
    dsimp only
    generalize (eraseCopies [opCodeSeparator] pc.length pc).1 = pc' at hsame hlen hhead ⊢
    rw [← hsame]
    split
    · rename_i hok
      have hlt := length_getOp2_lt (ne_nil_of_getOp2_ok hok)
      have hne : (getOp2 pc').opcode ≠ opCodeSeparator := by
        intro hop
        rw [eq_separator hok hop] at hhead
        exact hhead rfl
      rw [withoutSeparators_of_ok hok, if_neg hne]
      dsimp only
      rw [ih (by omega)]
    · rename_i hok
      exact (withoutSeparators_of_not_ok hok).symm

theorem findAndDelete_separator (scriptCode : CScript) :
    (findAndDelete scriptCode [opCodeSeparator]).1 = withoutSeparators scriptCode :=
  findAndDeleteLoop_separator (Nat.lt_succ_self _)

namespace CTransactionSignatureSerializer

theorem length_withoutSeparators (pc : CScript) :
    countCodeSeparators pc + (withoutSeparators pc).length = pc.length := by
  induction pc using script_induction with
  | h pc ih =>
    unfold countCodeSeparators at ih ⊢
    rw [operations_eq]
    split
    · rename_i hok
      have hih := ih hok
      have hraw := length_rawOp pc
      rw [withoutSeparators_of_ok hok, List.length_append, List.countP_cons]
      by_cases hop : (getOp2 pc).opcode = opCodeSeparator
      · have hlen := congrArg List.length (eq_separator hok hop)
        rw [List.length_cons] at hlen
        rw [if_pos hop, if_pos (by simpa using hop), List.length_nil]
        omega
      · rw [if_neg hop, if_neg (by simpa using hop)]
        omega
    · rename_i hok
      rw [withoutSeparators_of_not_ok hok, List.countP_nil, Nat.zero_add]

/-- Where the script parses to its end, the segments are what is left without the separators; the
bytes between `itBegin` and `it` are still to be written. -/
theorem writeSegments_eq {turns : ℕ} {it : CScript} (hparse : parsesToEnd it = true)
    (h : it.length < turns) (segment : Bytes) :
    writeSegments turns it (segment ++ it) = segment ++ withoutSeparators it := by
  induction turns generalizing it segment with
  | zero => exact absurd h (Nat.not_lt_zero _)
  | succ turns ih =>
    unfold writeSegments
    dsimp only
    split
    · rename_i hok
      have hlt := length_getOp2_lt (ne_nil_of_getOp2_ok hok)
      have hparse' : parsesToEnd (getOp2 it).pc = true := parsesToEnd_of_ok hok ▸ hparse
      rw [withoutSeparators_of_ok hok]
      split
      · rename_i hop
        have hseg : (segment ++ it).take ((segment ++ it).length - (getOp2 it).pc.length - 1) =
            segment := by
          have hlen := congrArg List.length (eq_separator hok hop)
          rw [List.length_cons] at hlen
          apply List.take_left'
          rw [List.length_append]
          omega
        have hrest := ih hparse' (by omega) []
        rw [List.nil_append] at hrest
        rw [hseg, hrest]
      · have hrest := ih hparse' (by omega) (segment ++ rawOp it)
        rw [List.append_assoc, rawOp_append, List.append_assoc] at hrest
        exact hrest
    · rename_i hok
      rw [Bool.not_eq_true] at hok
      have hnil : it = [] := by
        rw [parsesToEnd_of_not_ok hok, List.isEmpty_iff] at hparse
        exact hparse
      subst hnil
      have hempty : withoutSeparators [] = [] := withoutSeparators_of_not_ok (by decide)
      rw [hempty, List.append_nil]
      split
      · exact List.take_length
      · rename_i hseg
        exact (not_not.1 hseg).symm

theorem serializeScriptCode_eq {scriptCode : CScript} (h : parsesToEnd scriptCode = true) :
    serializeScriptCode scriptCode =
      serializeScript (findAndDelete scriptCode [opCodeSeparator]).1 := by
  have hlen := length_withoutSeparators scriptCode
  have hwrite := writeSegments_eq h (Nat.lt_succ_self _) []
  rw [List.nil_append] at hwrite
  rw [findAndDelete_separator, serializeScriptCode, serializeScript, hwrite]
  congr 2
  omega

/-- An input of the copy when all the changes are made. -/
def changedInput (t : CTransactionSignatureSerializer) (i : ℕ) (txin : CTxIn) : CTxIn :=
  { txin with
    scriptSig := if i = t.nIn then (findAndDelete t.scriptCode [opCodeSeparator]).1 else []
    nSequence := if i ≠ t.nIn ∧ (t.fHashSingle ∨ t.fHashNone) then 0 else txin.nSequence }

def changedInputs (t : CTransactionSignatureSerializer) : List CTxIn :=
  t.txTo.vin.mapIdx t.changedInput

def changedOutputs (t : CTransactionSignatureSerializer) : List CTxOut :=
  if t.fHashNone then []
  else if t.fHashSingle then
    (t.txTo.vout.take (t.nIn + 1)).mapIdx fun i txout => if i < t.nIn then CTxOut.null else txout
  else t.txTo.vout

variable {t : CTransactionSignatureSerializer}

theorem serialize_changedInput (h : parsesToEnd t.scriptCode = true) (i : ℕ) (txin : CTxIn) :
    serializeTxIn (t.changedInput i txin) =
      serializeOutPoint txin.prevout ++
        (if i ≠ t.nIn then serializeScript [] else serializeScriptCode t.scriptCode) ++
        (if i ≠ t.nIn ∧ (t.fHashSingle ∨ t.fHashNone) then encode 4 0
        else encode 4 txin.nSequence.toNat) := by
  rw [serializeScriptCode_eq h, serializeTxIn, changedInput]
  dsimp only
  have hscript : serializeScript
      (if i = t.nIn then (findAndDelete t.scriptCode [opCodeSeparator]).1 else []) =
      if i ≠ t.nIn then serializeScript []
      else serializeScript (findAndDelete t.scriptCode [opCodeSeparator]).1 := by
    by_cases hi : i = t.nIn
    · rw [if_pos hi, if_neg (not_not.2 hi)]
    · rw [if_neg hi, if_pos hi]
  have hsequence : encode 4
      (if i ≠ t.nIn ∧ (t.fHashSingle ∨ t.fHashNone) then 0 else txin.nSequence).toNat =
      if i ≠ t.nIn ∧ (t.fHashSingle ∨ t.fHashNone) then encode 4 0
      else encode 4 txin.nSequence.toNat := by
    split <;> rfl
  rw [hscript, hsequence]

theorem flatMap_eq_range {α : Type*} {l : List α} {f : α → Bytes} {g : ℕ → Bytes}
    (h : ∀ i x, l[i]? = some x → f x = g i) : l.flatMap f = (List.range l.length).flatMap g := by
  rw [List.flatMap_def, List.flatMap_def]
  congr 1
  apply List.ext_getElem?
  intro i
  rw [List.getElem?_map, List.getElem?_map]
  by_cases hi : i < l.length
  · rw [List.getElem?_eq_getElem hi, List.getElem?_range hi]
    exact congrArg some (h i _ (List.getElem?_eq_getElem hi))
  · rw [List.getElem?_eq_none (Nat.le_of_not_lt hi),
      List.getElem?_eq_none (List.length_range ▸ Nat.le_of_not_lt hi)]
    rfl

theorem serialize_changedInputs (h : parsesToEnd t.scriptCode = true)
    (hany : t.fAnyoneCanPay = false) :
    t.changedInputs.flatMap serializeTxIn =
      (List.range t.txTo.vin.length).flatMap t.serializeInput := by
  have hlen : t.changedInputs.length = t.txTo.vin.length := List.length_mapIdx
  rw [← hlen]
  apply flatMap_eq_range
  intro i x hx
  rw [changedInputs, List.getElem?_mapIdx, Option.map_eq_some_iff] at hx
  obtain ⟨txin, htxin, hx⟩ := hx
  rw [← hx, serialize_changedInput h, serializeInput, hany]
  simp only [Bool.false_eq_true, if_false, htxin]

/-- Only the input that is signed. -/
theorem serialize_oneInput (h : parsesToEnd t.scriptCode = true) (hany : t.fAnyoneCanPay = true)
    {txin : CTxIn} (htxin : t.txTo.vin[t.nIn]? = some txin) (i : ℕ) :
    serializeTxIn (t.changedInput t.nIn txin) = t.serializeInput i := by
  rw [serialize_changedInput h, serializeInput, hany]
  simp only [if_true, htxin]

theorem serialize_changedOutputs :
    t.changedOutputs.flatMap serializeTxOut =
      (List.range t.changedOutputs.length).flatMap t.serializeOutput := by
  apply flatMap_eq_range
  intro i x hx
  unfold changedOutputs at hx
  unfold serializeOutput
  split at hx
  · exact absurd hx (by simp)
  · split at hx
    · rename_i hhs
      rw [List.getElem?_mapIdx, Option.map_eq_some_iff] at hx
      obtain ⟨txout, htxout, hx⟩ := hx
      have hi : i < t.nIn + 1 := by
        by_contra hge
        have hlen := List.length_take_le (t.nIn + 1) t.txTo.vout
        rw [List.getElem?_eq_none (by omega)] at htxout
        exact absurd htxout (by simp)
      rw [List.getElem?_take_of_lt hi] at htxout
      rw [← hx]
      by_cases hlt : i < t.nIn
      · rw [if_pos hlt, if_pos ⟨hhs, by omega⟩]
      · rw [if_neg hlt, if_neg (fun hne => hne.2 (by omega)), htxout]
    · rename_i hhs
      rw [if_neg (fun hne => hhs hne.1), hx]

/-- The copy that the reference serializes. -/
def changed (t : CTransactionSignatureSerializer) : CMutableTransaction :=
  { nVersion := t.txTo.nVersion
    vin :=
      if t.fAnyoneCanPay then
        match t.txTo.vin[t.nIn]? with
        | none => []
        | some txin => [t.changedInput t.nIn txin]
      else t.changedInputs
    vout := t.changedOutputs
    nLockTime := t.txTo.nLockTime }

theorem serialize_changed (h : parsesToEnd t.scriptCode = true)
    (hin : t.nIn < t.txTo.vin.length) (hout : t.fHashSingle = true → t.nIn < t.txTo.vout.length) :
    t.changed.serialize = t.serialize := by
  have hnOutputs : t.changedOutputs.length =
      if t.fHashNone then 0 else if t.fHashSingle then t.nIn + 1 else t.txTo.vout.length := by
    unfold changedOutputs
    split
    · rfl
    · split
      · rename_i hsingle
        have hlt := hout hsingle
        rw [List.length_mapIdx, List.length_take]
        omega
      · rfl
  have hvout : CompactSize.writeVector serializeTxOut t.changedOutputs =
      CompactSize.write t.changedOutputs.length ++
        (List.range t.changedOutputs.length).flatMap t.serializeOutput := by
    rw [CompactSize.writeVector, serialize_changedOutputs]
  have hvin : CompactSize.writeVector serializeTxIn t.changed.vin =
      CompactSize.write (if t.fAnyoneCanPay then 1 else t.txTo.vin.length) ++
        (List.range (if t.fAnyoneCanPay then 1 else t.txTo.vin.length)).flatMap
          t.serializeInput := by
    cases hany : t.fAnyoneCanPay with
    | true =>
      have htxin := List.getElem?_eq_getElem hin
      simp only [changed, hany, if_true, htxin, CompactSize.writeVector]
      rw [List.flatMap_singleton, serialize_oneInput h hany htxin 0, List.range_one,
        List.flatMap_singleton]
      rfl
    | false =>
      have hlen : t.changedInputs.length = t.txTo.vin.length := List.length_mapIdx
      simp only [changed, hany, Bool.false_eq_true, if_false, CompactSize.writeVector, hlen]
      rw [serialize_changedInputs h hany]
  rw [CMutableTransaction.serialize, serialize, hvin]
  change _ ++ CompactSize.writeVector serializeTxOut t.changedOutputs ++ _ = _
  rw [hvout, hnOutputs]
  simp only [List.append_assoc]
  rfl

end CTransactionSignatureSerializer

section Equal

variable {scriptCode : CScript} {txTo : CTransaction} {nIn : ℕ} {nHashType : BitVec 32}

theorem getElem?_blanked (vin : List CTxIn) (code : CScript) (nIn i : ℕ) :
    ((vin.map fun txin => { txin with scriptSig := [] }).modify nIn
      fun txin => { txin with scriptSig := code })[i]? =
      vin[i]?.map fun txin => { txin with scriptSig := if i = nIn then code else [] } := by
  rw [List.getElem?_modify, List.getElem?_map]
  cases vin[i]? with
  | none => rfl
  | some txin =>
    by_cases hi : nIn = i
    · subst hi
      simp
    · simp [hi, Ne.symm hi]

/-- The inputs of the copy after the changes for `NONE` and `SINGLE`. -/
theorem released_eq_changedInputs (t : CTransactionSignatureSerializer) (vin : List CTxIn)
    (hvin : vin = (t.txTo.vin.map fun txin => { txin with scriptSig := [] }).modify t.nIn
      fun txin => { txin with scriptSig := (findAndDelete t.scriptCode [opCodeSeparator]).1 }) :
    (if t.fHashSingle ∨ t.fHashNone then releaseSequences t.nIn vin else vin) =
      t.changedInputs := by
  subst hvin
  apply List.ext_getElem?
  intro i
  rw [CTransactionSignatureSerializer.changedInputs, List.getElem?_mapIdx]
  split
  · rename_i hrelease
    rw [releaseSequences, List.getElem?_mapIdx, getElem?_blanked, Option.map_map]
    cases t.txTo.vin[i]? with
    | none => rfl
    | some txin =>
      simp only [Option.map_some, Function.comp_apply,
        CTransactionSignatureSerializer.changedInput, hrelease, and_true]
      by_cases hi : i = t.nIn
      · simp [hi]
      · simp [hi]
  · rename_i hrelease
    rw [getElem?_blanked]
    cases t.txTo.vin[i]? with
    | none => rfl
    | some txin =>
      simp only [Option.map_some, CTransactionSignatureSerializer.changedInput, hrelease,
        and_false, if_false]

theorem keepOneInput_changedInputs (t : CTransactionSignatureSerializer)
    (hany : t.fAnyoneCanPay = (nHashType &&& sighashAnyoneCanPay != 0))
    (hin : t.nIn < t.txTo.vin.length) :
    keepOneInput ⟨t.txTo.nVersion, t.changedInputs, t.changedOutputs, t.txTo.nLockTime⟩ t.nIn
      nHashType = t.changed := by
  have htxin := List.getElem?_eq_getElem hin
  unfold keepOneInput CTransactionSignatureSerializer.changed
  by_cases hflag : nHashType &&& sighashAnyoneCanPay = 0
  · rw [if_neg (not_not.2 hflag), hany, hflag]
    rfl
  · have hchanged : t.changedInputs[t.nIn]? =
        some (t.changedInput t.nIn t.txTo.vin[t.nIn]) := by
      rw [CTransactionSignatureSerializer.changedInputs, List.getElem?_mapIdx, htxin]
      rfl
    have hone : ∀ (vin : List CTxIn) (txin : CTxIn), 0 < vin.length →
        (vin.set 0 txin).take 1 = [txin] := by
      intro vin txin hlen
      cases vin with
      | nil => exact absurd hlen (Nat.lt_irrefl 0)
      | cons => rfl
    have hlen : t.changedInputs.length = t.txTo.vin.length := List.length_mapIdx
    rw [if_pos hflag, hany, if_pos (by simpa using hflag), htxin]
    simp only [hchanged]
    rw [hone _ _ (by omega)]

/-- What the reference makes of its copy. -/
theorem changed_eq_blankOutputs (hin : nIn < txTo.vin.length)
    (hout : nHashType &&& 0x1f = sighashSingle → nIn < txTo.vout.length) (vin : List CTxIn)
    (hvin : vin = (txTo.vin.map fun txin => { txin with scriptSig := [] }).modify nIn
      fun txin => { txin with scriptSig := (findAndDelete scriptCode [opCodeSeparator]).1 }) :
    (blankOutputs ⟨txTo.nVersion, vin, txTo.vout, txTo.nLockTime⟩ nIn nHashType).map
        (keepOneInput · nIn nHashType) =
      some (CTransactionSignatureSerializer.create txTo scriptCode nIn nHashType).changed := by
  have hreleased := released_eq_changedInputs
    (CTransactionSignatureSerializer.create txTo scriptCode nIn nHashType) vin hvin
  rw [← keepOneInput_changedInputs _ rfl hin, ← hreleased]
  unfold blankOutputs CTransactionSignatureSerializer.changedOutputs
    CTransactionSignatureSerializer.create
  dsimp only
  generalize nHashType &&& 0x1f = baseType at hout ⊢
  by_cases hnone : baseType = sighashNone
  · subst hnone
    rfl
  · by_cases hsingle : baseType = sighashSingle
    · subst hsingle
      rw [if_neg hnone, if_pos rfl, if_neg (Nat.not_le.2 (hout rfl))]
      rfl
    · have hbits : (baseType == sighashSingle) = false ∧ (baseType == sighashNone) = false :=
        ⟨beq_eq_false_iff_ne.2 hsingle, beq_eq_false_iff_ne.2 hnone⟩
      rw [if_neg hnone, if_neg hsingle, hbits.1, hbits.2]
      rfl

/-- The node hashes the bytes that the reference hashes, and returns 1 where it does. -/
theorem signatureHash_eq_signatureHashOld (h : parsesToEnd scriptCode = true) (txTo : CTransaction)
    (nIn : ℕ) (nHashType : BitVec 32) :
    signatureHash scriptCode txTo nIn nHashType =
      signatureHashOld scriptCode txTo nIn nHashType := by
  unfold signatureHash signatureHashOld
  dsimp only
  generalize hvin : ((txTo.vin.map fun txin => { txin with scriptSig := [] }).modify nIn
    fun txin => { txin with scriptSig := (findAndDelete scriptCode [opCodeSeparator]).1 }) = vin
  split
  · rfl
  · rename_i hin
    split
    · rename_i hout
      -- the hash type is SINGLE, and there is no output for the input
      have hnone : blankOutputs ⟨txTo.nVersion, vin, txTo.vout, txTo.nLockTime⟩ nIn nHashType =
          none := by
        unfold blankOutputs
        rw [if_neg (by rw [hout.1]; decide), if_pos hout.1, if_pos hout.2]
      rw [hnone]
      rfl
    · rename_i hout
      have hout' : nHashType &&& 0x1f = sighashSingle → nIn < txTo.vout.length :=
        fun hsingle => Nat.lt_of_not_le fun hle => hout ⟨hsingle, hle⟩
      let t := CTransactionSignatureSerializer.create txTo scriptCode nIn nHashType
      have hsingle : t.fHashSingle = true → t.nIn < t.txTo.vout.length :=
        fun hs => hout' (beq_iff_eq.1 hs)
      have hbytes := t.serialize_changed h (Nat.lt_of_not_le hin) hsingle
      have hchanged := changed_eq_blankOutputs (Nat.lt_of_not_le hin) hout' vin hvin.symm
      obtain ⟨txTmp, hblank, hkeep⟩ := Option.map_eq_some_iff.1 hchanged
      rw [hblank, Option.map_some, hkeep, hbytes]

end Equal

/-- A separator in the script code and one inside of a push, with two inputs and one output. -/
theorem signatureHash_eq_signatureHashOld_sample :
    let tx : CTransaction :=
      ⟨0, 1, [⟨⟨5, 0⟩, [0x51], 7⟩, ⟨⟨6, 1⟩, [], 8⟩], [⟨10, [0x51], 0⟩], 0⟩
    signatureHash [0x51, 0xab, 0x01, 0xab, 0xac] tx 0 0x83 =
      signatureHashOld [0x51, 0xab, 0x01, 0xab, 0xac] tx 0 0x83 :=
  signatureHash_eq_signatureHashOld (by decide) _ 0 0x83

end Scrypta.SignatureHash
