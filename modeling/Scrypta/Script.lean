import Scrypta.Primitives

/-! The script patterns that the node tests without running a script. -/

namespace Scrypta.Script

def opPushData1 : UInt8 := 0x4c
def opPushData2 : UInt8 := 0x4d
def opPushData4 : UInt8 := 0x4e
def opReturn : UInt8 := 0x6a
def opDup : UInt8 := 0x76
def opEqual : UInt8 := 0x87
def opEqualVerify : UInt8 := 0x88
def opHash160 : UInt8 := 0xa9
def opCheckSig : UInt8 := 0xac
def opCheckSigVerify : UInt8 := 0xad
def opCheckMultiSig : UInt8 := 0xae
def opCheckMultiSigVerify : UInt8 := 0xaf
def op1 : UInt8 := 0x51
def op16 : UInt8 := 0x60
def opInvalidOpcode : UInt8 := 0xff

/-- One call of `GetOp2`: its result, the opcode, the pushed bytes and where `pc` stands. -/
structure Op where
  ok : Bool
  opcode : UInt8
  data : Bytes
  pc : CScript
  deriving DecidableEq, Repr

def Op.cut (pc : CScript) : Op := ⟨false, opInvalidOpcode, [], pc⟩

def Op.push (opcode : UInt8) (nSize : ℕ) (pc : CScript) : Op :=
  if pc.length % 2 ^ 32 < nSize then Op.cut pc
  else ⟨true, opcode, pc.take nSize, pc.drop nSize⟩

def getOp2 : CScript → Op
  | [] => Op.cut []
  | opcode :: pc =>
    if opPushData4 < opcode then ⟨true, opcode, [], pc⟩
    else if opcode < opPushData1 then Op.push opcode opcode.toNat pc
    else if opcode = opPushData1 then
      match pc with
      | a :: pc => Op.push opcode a.toNat pc
      | pc => Op.cut pc
    else if opcode = opPushData2 then
      match pc with
      | a :: b :: pc => Op.push opcode (a.toNat + 256 * b.toNat) pc
      | pc => Op.cut pc
    else
      match pc with
      | a :: b :: c :: d :: pc =>
        Op.push opcode (a.toNat + 256 * b.toNat + 65536 * c.toNat + 16777216 * d.toNat) pc
      | pc => Op.cut pc

/-- The loop of `IsNormalPaymentScript`: the opcodes it still expects (`none` where it
takes any), then the end of the script. -/
def opcodesAre : List (Option UInt8) → CScript → Bool
  | _, [] => true
  | [], _ :: _ => false
  | want :: wants, pc =>
    (want.isNone || want == some (getOp2 pc).opcode) && opcodesAre wants (getOp2 pc).pc

def isNormalPaymentScript (s : CScript) : Bool :=
  s.length == 25 &&
    opcodesAre [some opDup, some opHash160, none, some opEqualVerify, some opCheckSig] s

def isPayToScriptHash (s : CScript) : Bool :=
  s.length == 23 && s[0]? == some opHash160 && s[1]? == some 0x14 && s[22]? == some opEqual

/-! Signature operations. Every opcode takes at least one byte off the script, so its length
bounds the number of turns. -/

def sigOpCountLoop (fAccurate : Bool) : ℕ → UInt8 → CScript → ℕ
  | 0, _, _ => 0
  | turns + 1, lastOpcode, pc =>
    let op := getOp2 pc
    if !op.ok then 0
    else
      let n :=
        if op.opcode = opCheckSig ∨ op.opcode = opCheckSigVerify then 1
        else if op.opcode = opCheckMultiSig ∨ op.opcode = opCheckMultiSigVerify then
          if fAccurate ∧ op1 ≤ lastOpcode ∧ lastOpcode ≤ op16 then
            lastOpcode.toNat - (op1.toNat - 1)
          else 20
        else 0
      n + sigOpCountLoop fAccurate turns op.opcode op.pc

def getSigOpCount (fAccurate : Bool) (s : CScript) : ℕ :=
  sigOpCountLoop fAccurate s.length opInvalidOpcode s

/-- The last item that a script pushes; `none` when it does more than push. -/
def lastPush : ℕ → Bytes → CScript → Option Bytes
  | 0, data, _ => some data
  | turns + 1, data, pc =>
    if pc.isEmpty then some data
    else
      let op := getOp2 pc
      if !op.ok then none
      else if op16 < op.opcode then none
      else lastPush turns op.data op.pc

/-- The operations of the script that an input's `scriptSig` runs for its output. -/
def getSigOpCountFor (scriptPubKey scriptSig : CScript) : ℕ :=
  if !isPayToScriptHash scriptPubKey then getSigOpCount true scriptPubKey
  else
    match lastPush scriptSig.length [] scriptSig with
    | none => 0
    | some data => getSigOpCount true data

def isUnspendable : CScript → Bool
  | [] => false
  | opcode :: _ => opcode == opReturn

end Scrypta.Script
