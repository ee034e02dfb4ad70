import Scrypta.ScriptNum
import Scrypta.ScriptParse
import Scrypta.SignatureHash
import Scrypta.Solver
import Scrypta.Toolkit.Outcome

/-! The script interpreter. Stacks are lists with the top of the stack first. A position that does
not exist, an overflow and a loop without an end are outcomes of their own, so that it can be
shown that they never come about. -/

namespace Scrypta.Interpreter

open Script

def op1Negate : UInt8 := 0x4f
def opReserved : UInt8 := 0x50
def opNop : UInt8 := 0x61
def opIf : UInt8 := 0x63
def opNotIf : UInt8 := 0x64
def opElse : UInt8 := 0x67
def opEndIf : UInt8 := 0x68
def opVerify : UInt8 := 0x69
def opToAltStack : UInt8 := 0x6b
def opFromAltStack : UInt8 := 0x6c
def op2Drop : UInt8 := 0x6d
def op2Dup : UInt8 := 0x6e
def op3Dup : UInt8 := 0x6f
def op2Over : UInt8 := 0x70
def op2Rot : UInt8 := 0x71
def op2Swap : UInt8 := 0x72
def opIfDup : UInt8 := 0x73
def opDepth : UInt8 := 0x74
def opDrop : UInt8 := 0x75
def opNip : UInt8 := 0x77
def opOver : UInt8 := 0x78
def opPick : UInt8 := 0x79
def opRoll : UInt8 := 0x7a
def opRot : UInt8 := 0x7b
def opSwap : UInt8 := 0x7c
def opTuck : UInt8 := 0x7d
def opCat : UInt8 := 0x7e
def opSubstr : UInt8 := 0x7f
def opLeft : UInt8 := 0x80
def opRight : UInt8 := 0x81
def opSize : UInt8 := 0x82
def opInvert : UInt8 := 0x83
def opAnd : UInt8 := 0x84
def opOr : UInt8 := 0x85
def opXor : UInt8 := 0x86
def op1Add : UInt8 := 0x8b
def op1Sub : UInt8 := 0x8c
def op2Mul : UInt8 := 0x8d
def op2Div : UInt8 := 0x8e
def opNegate : UInt8 := 0x8f
def opAbs : UInt8 := 0x90
def opNot : UInt8 := 0x91
def op0NotEqual : UInt8 := 0x92
def opAdd : UInt8 := 0x93
def opSub : UInt8 := 0x94
def opMul : UInt8 := 0x95
def opDiv : UInt8 := 0x96
def opMod : UInt8 := 0x97
def opLShift : UInt8 := 0x98
def opRShift : UInt8 := 0x99
def opBoolAnd : UInt8 := 0x9a
def opBoolOr : UInt8 := 0x9b
def opNumEqual : UInt8 := 0x9c
def opNumEqualVerify : UInt8 := 0x9d
def opNumNotEqual : UInt8 := 0x9e
def opLessThan : UInt8 := 0x9f
def opGreaterThan : UInt8 := 0xa0
def opLessThanOrEqual : UInt8 := 0xa1
def opGreaterThanOrEqual : UInt8 := 0xa2
def opMin : UInt8 := 0xa3
def opMax : UInt8 := 0xa4
def opWithin : UInt8 := 0xa5
def opRipemd160 : UInt8 := 0xa6
def opSha1 : UInt8 := 0xa7
def opSha256 : UInt8 := 0xa8
def opHash256 : UInt8 := 0xaa
def opNop1 : UInt8 := 0xb0
def opNop10 : UInt8 := 0xb9

def maxScriptElementSize : ℕ := 520

inductive ScriptError
  | unknownError
  | evalFalse
  | opReturn
  | scriptSize
  | pushSize
  | opCount
  | stackSize
  | sigCount
  | pubkeyCount
  | verify
  | equalVerify
  | checkMultiSigVerify
  | checkSigVerify
  | numEqualVerify
  | badOpcode
  | disabledOpcode
  | invalidStackOperation
  | invalidAltStackOperation
  | unbalancedConditional
  | sigHashType
  | sigDer
  | minimalData
  | sigPushOnly
  | sigHighS
  | sigNullDummy
  | pubkeyType
  | discourageUpgradableNops
  deriving DecidableEq, Repr

def scriptVerifyP2SH : BitVec 32 := 1
def scriptVerifyStrictEnc : BitVec 32 := 2
def scriptVerifyDerSig : BitVec 32 := 4
def scriptVerifyLowS : BitVec 32 := 8
def scriptVerifyNullDummy : BitVec 32 := 16
def scriptVerifySigPushOnly : BitVec 32 := 32
def scriptVerifyMinimalData : BitVec 32 := 64
def scriptVerifyDiscourageUpgradableNops : BitVec 32 := 128

def hasFlag (flags flag : BitVec 32) : Bool := flags &&& flag != 0

/-- How a run of the interpreter stops. -/
inductive Stop
  | error (serror : ScriptError)
  /-- `CScriptNum` throws `scriptnum_error` on this operand. -/
  | notNumber (vch : Bytes)
  /-- A position of a stack was read or erased that does not exist. -/
  | outOfRange
  /-- An assertion fails, or the value of a `CScriptNum` leaves the 64-bit range. -/
  | assertion
  /-- The loop was not at its end. -/
  | outOfTurns
  deriving DecidableEq, Repr

abbrev Exec := Except Stop

/-! Numbers. -/

namespace CScriptNum

def int64Min : ℤ := -2 ^ 63
def int64Max : ℤ := 2 ^ 63 - 1
def intMin : ℤ := -2 ^ 31
def intMax : ℤ := 2 ^ 31 - 1

/-- The top bit is the sign. -/
def setVch (vch : Bytes) : ℤ :=
  match vch.getLast? with
  | none => 0
  | some back =>
    if back &&& 0x80 ≠ 0 then -((LittleEndian.decode vch : ℤ) - 0x80 * 256 ^ (vch.length - 1))
    else LittleEndian.decode vch

/-- The number takes as few bytes as possible. -/
def isMinimal (vch : Bytes) : Bool :=
  match vch.getLast? with
  | none => true
  | some back =>
    if back &&& 0x7f = 0 then
      !(vch.length ≤ 1 || vch.getD (vch.length - 2) 0 &&& 0x80 == 0)
    else true

/-- The constructor for operands. -/
def ofVch (fRequireMinimal : Bool) (vch : Bytes) : Exec ℤ :=
  if 4 < vch.length then .error (.notNumber vch)
  else if fRequireMinimal ∧ !isMinimal vch then .error (.notNumber vch)
  else .ok (setVch vch)

/-- `operator+` and `operator-` construct from the sum, whose overflow has no meaning. -/
def ofInt (value : ℤ) : Exec ℤ :=
  if int64Min ≤ value ∧ value ≤ int64Max then .ok value else .error .assertion

def addAssign (value rhs : ℤ) : Exec ℤ :=
  if rhs = 0 ∨ (0 < rhs ∧ value ≤ int64Max - rhs) ∨ (rhs < 0 ∧ int64Min - rhs ≤ value) then
    .ok (value + rhs)
  else .error .assertion

def subAssign (value rhs : ℤ) : Exec ℤ :=
  if rhs = 0 ∨ (0 < rhs ∧ int64Min + rhs ≤ value) ∨ (rhs < 0 ∧ value ≤ int64Max + rhs) then
    .ok (value - rhs)
  else .error .assertion

def neg (value : ℤ) : Exec ℤ := if value ≠ int64Min then .ok (-value) else .error .assertion

def getInt (value : ℤ) : ℤ :=
  if intMax < value then intMax else if value < intMin then intMin else value

end CScriptNum

/-! Positions of a stack. -/

/-- `stacktop(-i)`. -/
def stacktop (stack : List Bytes) : ℕ → Exec Bytes
  | 0 => .error .outOfRange
  | i + 1 =>
    match stack[i]? with
    | some vch => .ok vch
    | none => .error .outOfRange

def popstack : List Bytes → Exec (List Bytes)
  | [] => .error .outOfRange
  | _ :: stack => .ok stack

def popMany : ℕ → List Bytes → Exec (List Bytes)
  | 0, stack => .ok stack
  | n + 1, stack => (popstack stack).bind (popMany n)

/-- `stack.erase(stack.end() - i, stack.end() - i + n)`. -/
def eraseTop (stack : List Bytes) (i n : ℕ) : Exec (List Bytes) :=
  if n ≤ i ∧ i ≤ stack.length then .ok (stack.take (i - n) ++ stack.drop i)
  else .error .outOfRange

/-- `stack.insert(stack.end() - i, vch)`. -/
def insertTop (stack : List Bytes) (i : ℕ) (vch : Bytes) : Exec (List Bytes) :=
  if i ≤ stack.length then .ok (stack.take i ++ vch :: stack.drop i) else .error .outOfRange

/-- `swap(stacktop(-i), stacktop(-j))`. -/
def swapTop (stack : List Bytes) (i j : ℕ) : Exec (List Bytes) := do
  let vch1 ← stacktop stack i
  let vch2 ← stacktop stack j
  return (stack.set (i - 1) vch2).set (j - 1) vch1

/-- The check of an opcode's arity. -/
def needs (n : ℕ) (stack : List Bytes) : Exec Unit :=
  if stack.length < n then .error (.error .invalidStackOperation) else .ok ()

def vchTrue : Bytes := [1]
def vchFalse : Bytes := []

def ofBool (f : Bool) : Bytes := if f then vchTrue else vchFalse

/-- Anything but zeros is true, and a last byte `80` is the sign of a zero. -/
def castToBool : Bytes → Bool
  | [] => false
  | [b] => b != 0 && b != 0x80
  | b :: vch => b != 0 || castToBool vch

/-! Opcodes that act on the main stack only. -/

def verify (stack : List Bytes) : Exec (List Bytes) := do
  needs 1 stack
  let vch ← stacktop stack 1
  if castToBool vch then popstack stack else .error (.error .verify)

def twoDrop (stack : List Bytes) : Exec (List Bytes) := do
  needs 2 stack
  popMany 2 stack

def twoDup (stack : List Bytes) : Exec (List Bytes) := do
  needs 2 stack
  let vch1 ← stacktop stack 2
  let vch2 ← stacktop stack 1
  return vch2 :: vch1 :: stack

def threeDup (stack : List Bytes) : Exec (List Bytes) := do
  needs 3 stack
  let vch1 ← stacktop stack 3
  let vch2 ← stacktop stack 2
  let vch3 ← stacktop stack 1
  return vch3 :: vch2 :: vch1 :: stack

def twoOver (stack : List Bytes) : Exec (List Bytes) := do
  needs 4 stack
  let vch1 ← stacktop stack 4
  let vch2 ← stacktop stack 3
  return vch2 :: vch1 :: stack

def twoRot (stack : List Bytes) : Exec (List Bytes) := do
  needs 6 stack
  let vch1 ← stacktop stack 6
  let vch2 ← stacktop stack 5
  let stack ← eraseTop stack 6 2
  return vch2 :: vch1 :: stack

def twoSwap (stack : List Bytes) : Exec (List Bytes) := do
  needs 4 stack
  let stack ← swapTop stack 4 2
  swapTop stack 3 1

def ifDup (stack : List Bytes) : Exec (List Bytes) := do
  needs 1 stack
  let vch ← stacktop stack 1
  return if castToBool vch then vch :: stack else stack

def depth (stack : List Bytes) : Exec (List Bytes) :=
  return ScriptNum.serialize stack.length :: stack

def drop (stack : List Bytes) : Exec (List Bytes) := do
  needs 1 stack
  popstack stack

def dup (stack : List Bytes) : Exec (List Bytes) := do
  needs 1 stack
  let vch ← stacktop stack 1
  return vch :: stack

def nip (stack : List Bytes) : Exec (List Bytes) := do
  needs 2 stack
  eraseTop stack 2 1

def overTop (stack : List Bytes) : Exec (List Bytes) := do
  needs 2 stack
  let vch ← stacktop stack 2
  return vch :: stack

def rollOut (roll : Bool) (stack : List Bytes) (i : ℕ) : Exec (List Bytes) :=
  if roll then eraseTop stack i 1 else .ok stack

/-- `OP_PICK` and `OP_ROLL`. -/
def pickOrRoll (fRequireMinimal roll : Bool) (stack : List Bytes) : Exec (List Bytes) := do
  needs 2 stack
  let bn ← CScriptNum.ofVch fRequireMinimal (← stacktop stack 1)
  let n := CScriptNum.getInt bn
  let stack ← popstack stack
  if n < 0 ∨ toInt32 stack.length ≤ n then .error (.error .invalidStackOperation)
  else
    let vch ← stacktop stack (n.toNat + 1)
    let stack ← rollOut roll stack (n.toNat + 1)
    return vch :: stack

def rot (stack : List Bytes) : Exec (List Bytes) := do
  needs 3 stack
  let stack ← swapTop stack 3 2
  swapTop stack 2 1

def swap (stack : List Bytes) : Exec (List Bytes) := do
  needs 2 stack
  swapTop stack 2 1

def tuck (stack : List Bytes) : Exec (List Bytes) := do
  needs 2 stack
  let vch ← stacktop stack 1
  insertTop stack 2 vch

def size (stack : List Bytes) : Exec (List Bytes) := do
  needs 1 stack
  let vch ← stacktop stack 1
  return ScriptNum.serialize vch.length :: stack

/-- The part of the `...VERIFY` opcodes: the result is dropped if it is true. -/
def verified (serror : ScriptError) (f : Bool) (stack : List Bytes) : Exec (List Bytes) :=
  if f then popstack stack else .error (.error serror)

def equal (thenVerify : Bool) (stack : List Bytes) : Exec (List Bytes) := do
  needs 2 stack
  let vch1 ← stacktop stack 2
  let vch2 ← stacktop stack 1
  let fEqual := decide (vch1 = vch2)
  let stack ← popMany 2 stack
  let stack := ofBool fEqual :: stack
  if thenVerify then verified .equalVerify fEqual stack else return stack

/-- The opcodes on one number. -/
def unary (fRequireMinimal : Bool) (f : ℤ → Exec ℤ) (stack : List Bytes) :
    Exec (List Bytes) := do
  needs 1 stack
  let bn ← CScriptNum.ofVch fRequireMinimal (← stacktop stack 1)
  let bn ← f bn
  let stack ← popstack stack
  return ScriptNum.serialize bn :: stack

/-- The opcodes on two numbers. -/
def binary (fRequireMinimal : Bool) (f : ℤ → ℤ → Exec ℤ) (stack : List Bytes) :
    Exec (List Bytes) := do
  needs 2 stack
  let bn1 ← CScriptNum.ofVch fRequireMinimal (← stacktop stack 2)
  let bn2 ← CScriptNum.ofVch fRequireMinimal (← stacktop stack 1)
  let bn ← f bn1 bn2
  let stack ← popMany 2 stack
  return ScriptNum.serialize bn :: stack

def numEqualVerify (fRequireMinimal : Bool) (stack : List Bytes) : Exec (List Bytes) := do
  let stack ← binary fRequireMinimal (fun bn1 bn2 => .ok (if bn1 = bn2 then 1 else 0)) stack
  let vch ← stacktop stack 1
  verified .numEqualVerify (castToBool vch) stack

def within (fRequireMinimal : Bool) (stack : List Bytes) : Exec (List Bytes) := do
  needs 3 stack
  let bn1 ← CScriptNum.ofVch fRequireMinimal (← stacktop stack 3)
  let bn2 ← CScriptNum.ofVch fRequireMinimal (← stacktop stack 2)
  let bn3 ← CScriptNum.ofVch fRequireMinimal (← stacktop stack 1)
  let fValue := decide (bn2 ≤ bn1 ∧ bn1 < bn3)
  let stack ← popMany 3 stack
  return ofBool fValue :: stack

def hashTop (hash : Bytes → Bytes) (stack : List Bytes) : Exec (List Bytes) := do
  needs 1 stack
  let vch ← stacktop stack 1
  let stack ← popstack stack
  return hash vch :: stack

/-- The hash functions, with the sizes of the buffers they fill. -/
structure Hashes where
  ripemd160 : Bytes → Bytes
  sha1 : Bytes → Bytes
  sha256 : Bytes → Bytes
  hash160 : Bytes → Bytes
  hash256 : Bytes → Bytes
  length_ripemd160 : ∀ vch, (ripemd160 vch).length = 20
  length_sha1 : ∀ vch, (sha1 vch).length = 20
  length_sha256 : ∀ vch, (sha256 vch).length = 32
  length_hash160 : ∀ vch, (hash160 vch).length = 20
  length_hash256 : ∀ vch, (hash256 vch).length = 32

/-- A number for a truth value. -/
def ofProp (p : Prop) [Decidable p] : Exec ℤ := .ok (if p then 1 else 0)

/-- The cases of the switch that act on the main stack only. -/
def stackOps (hashes : Hashes) (fRequireMinimal : Bool) :
    List (UInt8 × (List Bytes → Exec (List Bytes))) :=
  let un := unary fRequireMinimal
  let bin := binary fRequireMinimal
  [(opVerify, verify), (op2Drop, twoDrop), (op2Dup, twoDup), (op3Dup, threeDup),
    (op2Over, twoOver), (op2Rot, twoRot), (op2Swap, twoSwap), (opIfDup, ifDup),
    (opDepth, depth), (opDrop, drop), (opDup, dup), (opNip, nip), (opOver, overTop),
    (opPick, pickOrRoll fRequireMinimal false), (opRoll, pickOrRoll fRequireMinimal true),
    (opRot, rot), (opSwap, swap), (opTuck, tuck), (opSize, size),
    (opEqual, equal false), (opEqualVerify, equal true),
    (op1Add, un (CScriptNum.addAssign · 1)), (op1Sub, un (CScriptNum.subAssign · 1)),
    (opNegate, un CScriptNum.neg),
    (opAbs, un fun bn => if bn < 0 then CScriptNum.neg bn else .ok bn),
    (opNot, un fun bn => ofProp (bn = 0)), (op0NotEqual, un fun bn => ofProp (bn ≠ 0)),
    (opAdd, bin fun bn1 bn2 => CScriptNum.ofInt (bn1 + bn2)),
    (opSub, bin fun bn1 bn2 => CScriptNum.ofInt (bn1 - bn2)),
    (opBoolAnd, bin fun bn1 bn2 => ofProp (bn1 ≠ 0 ∧ bn2 ≠ 0)),
    (opBoolOr, bin fun bn1 bn2 => ofProp (bn1 ≠ 0 ∨ bn2 ≠ 0)),
    (opNumEqual, bin fun bn1 bn2 => ofProp (bn1 = bn2)),
    (opNumEqualVerify, numEqualVerify fRequireMinimal),
    (opNumNotEqual, bin fun bn1 bn2 => ofProp (bn1 ≠ bn2)),
    (opLessThan, bin fun bn1 bn2 => ofProp (bn1 < bn2)),
    (opGreaterThan, bin fun bn1 bn2 => ofProp (bn2 < bn1)),
    (opLessThanOrEqual, bin fun bn1 bn2 => ofProp (bn1 ≤ bn2)),
    (opGreaterThanOrEqual, bin fun bn1 bn2 => ofProp (bn2 ≤ bn1)),
    (opMin, bin fun bn1 bn2 => .ok (if bn1 < bn2 then bn1 else bn2)),
    (opMax, bin fun bn1 bn2 => .ok (if bn2 < bn1 then bn1 else bn2)),
    (opWithin, within fRequireMinimal),
    (opRipemd160, hashTop hashes.ripemd160), (opSha1, hashTop hashes.sha1),
    (opSha256, hashTop hashes.sha256), (opHash160, hashTop hashes.hash160),
    (opHash256, hashTop hashes.hash256)]

/-! The encodings of keys, signatures and pushes. -/

def isCompressedOrUncompressedPubKey (vchPubKey : Bytes) : Bool :=
  if vchPubKey.length < 33 then false
  else if vchPubKey.getD 0 0 = 0x04 then vchPubKey.length == 65
  else if vchPubKey.getD 0 0 = 0x02 ∨ vchPubKey.getD 0 0 = 0x03 then vchPubKey.length == 33
  else false

/-- A first byte that is zero is not needed, unless the number would be negative without it. -/
def isPadded (sig : Bytes) (start len : ℕ) : Bool :=
  decide (1 < len) && sig.getD start 0 == 0x00 && sig.getD (start + 1) 0 &&& 0x80 == 0

def isValidSignatureEncoding (sig : Bytes) : Bool :=
  if sig.length < 9 then false
  else if 73 < sig.length then false
  else if sig.getD 0 0 ≠ 0x30 then false
  else if (sig.getD 1 0).toNat ≠ sig.length - 3 then false
  else
    let lenR := (sig.getD 3 0).toNat
    if sig.length ≤ 5 + lenR then false
    else
      let lenS := (sig.getD (5 + lenR) 0).toNat
      if lenR + lenS + 7 ≠ sig.length then false
      else if sig.getD 2 0 ≠ 0x02 then false
      else if lenR = 0 then false
      else if sig.getD 4 0 &&& 0x80 ≠ 0 then false
      else if isPadded sig 4 lenR then false
      else if sig.getD (lenR + 4) 0 ≠ 0x02 then false
      else if lenS = 0 then false
      else if sig.getD (lenR + 6) 0 &&& 0x80 ≠ 0 then false
      else !isPadded sig (lenR + 6) lenS

/-- Half of the order of the curve, minus 1. -/
def maxModHalfOrder : ℕ :=
  0x7FFFFFFFFFFFFFFFFFFFFFFFFFFFFFFF5D576E7357A4501DDFE92F46681B20A0

/-- `CheckSignatureElement` compares big-endian numbers. -/
def checkSignatureElement (vch : Bytes) : Bool :=
  let value := LittleEndian.decode vch.reverse
  decide (0 < value) && decide (value ≤ maxModHalfOrder)

def isLowDERSignature (vchSig : Bytes) : Except ScriptError Unit :=
  if !isValidSignatureEncoding vchSig then .error .sigDer
  else
    let nLenR := (vchSig.getD 3 0).toNat
    let nLenS := (vchSig.getD (5 + nLenR) 0).toNat
    if checkSignatureElement ((vchSig.drop (6 + nLenR)).take nLenS) then .ok ()
    else .error .sigHighS

def isDefinedHashtypeSignature (vchSig : Bytes) : Bool :=
  match vchSig.getLast? with
  | none => false
  | some back =>
    let nHashType := back &&& ~~~0x80
    1 ≤ nHashType && nHashType ≤ 3

def checkSignatureEncoding (vchSig : Bytes) (flags : BitVec 32) : Except ScriptError Unit :=
  if vchSig.length = 0 then .ok ()
  else if hasFlag flags (scriptVerifyDerSig ||| scriptVerifyLowS ||| scriptVerifyStrictEnc) ∧
      !isValidSignatureEncoding vchSig then .error .sigDer
  else do
    if hasFlag flags scriptVerifyLowS then isLowDERSignature vchSig
    if hasFlag flags scriptVerifyStrictEnc ∧ !isDefinedHashtypeSignature vchSig then
      .error .sigHashType
    else .ok ()

def checkPubKeyEncoding (vchPubKey : Bytes) (flags : BitVec 32) : Except ScriptError Unit :=
  if hasFlag flags scriptVerifyStrictEnc ∧ !isCompressedOrUncompressedPubKey vchPubKey then
    .error .pubkeyType
  else .ok ()

def checkMinimalPush (data : Bytes) (opcode : UInt8) : Bool :=
  if data.length = 0 then opcode == ScriptNum.op0
  else if data.length = 1 ∧ 1 ≤ data.getD 0 0 ∧ data.getD 0 0 ≤ 16 then
    opcode == op1 + (data.getD 0 0 - 1)
  else if data.length = 1 ∧ data.getD 0 0 = 0x81 then opcode == op1Negate
  else if data.length ≤ 75 then opcode.toNat == data.length
  else if data.length ≤ 255 then opcode == opPushData1
  else if data.length ≤ 65535 then opcode == opPushData2
  else true

/-! The interpreter. -/

/-- What a run is given: the hash functions, the checker and the flags. -/
structure Context where
  hashes : Hashes
  checkSig : Bytes → Bytes → CScript → Bool
  flags : BitVec 32

def Context.fRequireMinimal (ctx : Context) : Bool := hasFlag ctx.flags scriptVerifyMinimalData

structure State where
  pc : CScript
  pbegincodehash : CScript
  stack : List Bytes
  altstack : List Bytes := []
  vfExec : List Bool := []
  nOpCount : ℕ := 0
  deriving DecidableEq, Repr

/-- The outcome of a step, with the number of its `CheckSig` calls. -/
abbrev Counted (α : Type) := ℕ × Exec α

/-- The part that may stop makes no such call. -/
def Counted.after {α β : Type} (x : Exec α) (f : α → Counted β) : Counted β :=
  match x with
  | .error stop => (0, .error stop)
  | .ok a => f a

/-- The encodings of a signature and a key. -/
def checkEncodings (ctx : Context) (vchSig vchPubKey : Bytes) : Exec Unit :=
  match checkSignatureEncoding vchSig ctx.flags with
  | .error serror => .error (.error serror)
  | .ok () =>
    match checkPubKeyEncoding vchPubKey ctx.flags with
    | .error serror => .error (.error serror)
    | .ok () => .ok ()

/-- Drop a signature, since there is no way for a signature to sign itself. -/
def dropSignature (scriptCode : CScript) (vchSig : Bytes) : CScript :=
  (findAndDelete scriptCode (ScriptNum.pushData vchSig)).1

/-- What stands before the call of `CheckSig`. -/
def checkSigArgs (ctx : Context) (s : State) : Exec (Bytes × Bytes × CScript) := do
  needs 2 s.stack
  let vchSig ← stacktop s.stack 2
  let vchPubKey ← stacktop s.stack 1
  checkEncodings ctx vchSig vchPubKey
  return (vchSig, vchPubKey, dropSignature s.pbegincodehash vchSig)

/-- What stands after it. -/
def pushVerdict (thenVerify : Bool) (serror : ScriptError) (fSuccess : Bool)
    (stack : List Bytes) : Exec (List Bytes) :=
  let stack := ofBool fSuccess :: stack
  if thenVerify then verified serror fSuccess stack else .ok stack

/-- `OP_CHECKSIG` and `OP_CHECKSIGVERIFY`. -/
def opCheckSigs (ctx : Context) (thenVerify : Bool) (s : State) : Counted (List Bytes) :=
  Counted.after (checkSigArgs ctx s) fun (vchSig, vchPubKey, scriptCode) =>
    let fSuccess := ctx.checkSig vchSig vchPubKey scriptCode
    (1, (popMany 2 s.stack).bind (pushVerdict thenVerify .checkSigVerify fSuccess))

/-- The numbers of keys and signatures, and where the first of each stands. -/
structure MultisigArgs where
  nOpCount : ℕ
  nKeysCount : ℕ
  ikey : ℕ
  nSigsCount : ℕ
  isig : ℕ
  i : ℕ

def needsInt (i : ℕ) (stack : List Bytes) : Exec Unit :=
  if toInt32 stack.length < i then .error (.error .invalidStackOperation) else .ok ()

def multisigArgs (ctx : Context) (s : State) : Exec MultisigArgs := do
  needsInt 1 s.stack
  let nKeysCount := CScriptNum.getInt
    (← CScriptNum.ofVch ctx.fRequireMinimal (← stacktop s.stack 1))
  if nKeysCount < 0 ∨ 20 < nKeysCount then .error (.error .pubkeyCount)
  else
    let nKeysCount := nKeysCount.toNat
    let nOpCount := s.nOpCount + nKeysCount
    if 201 < nOpCount then .error (.error .opCount)
    else
      let ikey := 2
      let i := ikey + nKeysCount
      needsInt i s.stack
      let nSigsCount := CScriptNum.getInt
        (← CScriptNum.ofVch ctx.fRequireMinimal (← stacktop s.stack i))
      if nSigsCount < 0 ∨ (nKeysCount : ℤ) < nSigsCount then .error (.error .sigCount)
      else
        let nSigsCount := nSigsCount.toNat
        let isig := i + 1
        let i := isig + nSigsCount
        needsInt i s.stack
        return ⟨nOpCount, nKeysCount, ikey, nSigsCount, isig, i⟩

/-- The signatures are dropped from the script code one after the other. -/
def dropSignatures (stack : List Bytes) : ℕ → ℕ → CScript → Exec CScript
  | 0, _, scriptCode => .ok scriptCode
  | n + 1, isig, scriptCode =>
    (stacktop stack isig).bind fun vchSig =>
      dropSignatures stack n (isig + 1) (dropSignature scriptCode vchSig)

/-- What stands before the loop over keys and signatures. -/
def multisigScriptCode (ctx : Context) (s : State) : Exec (MultisigArgs × CScript) := do
  let args ← multisigArgs ctx s
  let scriptCode ← dropSignatures s.stack args.nSigsCount args.isig s.pbegincodehash
  return (args, scriptCode)

/-- What a turn of the loop over keys and signatures reads and checks first. -/
def readSigAndKey (ctx : Context) (stack : List Bytes) (isig ikey : ℕ) :
    Exec (Bytes × Bytes) := do
  let vchSig ← stacktop stack isig
  let vchPubKey ← stacktop stack ikey
  checkEncodings ctx vchSig vchPubKey
  return (vchSig, vchPubKey)

/-- The loop over keys and signatures; it ends when no signature is left, or fewer keys than
signatures. -/
def matchSignatures (ctx : Context) (stack : List Bytes) (scriptCode : CScript) :
    ℕ → ℕ → ℕ → ℕ → Counted Bool
  | nKeysCount, nSigsCount, isig, ikey =>
    if nSigsCount = 0 then (0, .ok true)
    else
      match nKeysCount with
      | 0 => (0, .ok false)
      | nKeys + 1 =>
        if nKeys + 1 < nSigsCount then (0, .ok false)
        else
          Counted.after (readSigAndKey ctx stack isig ikey) fun (vchSig, vchPubKey) =>
            let (calls, fSuccess) :=
              if ctx.checkSig vchSig vchPubKey scriptCode then
                matchSignatures ctx stack scriptCode nKeys (nSigsCount - 1) (isig + 1) (ikey + 1)
              else matchSignatures ctx stack scriptCode nKeys nSigsCount isig (ikey + 1)
            (calls + 1, fSuccess)

/-- The arguments are popped, and one element more, which may have to be empty. -/
def popArgs (ctx : Context) (i : ℕ) (stack : List Bytes) : Exec (List Bytes) := do
  let stack ← popMany (i - 1) stack
  needs 1 stack
  let vch ← stacktop stack 1
  if hasFlag ctx.flags scriptVerifyNullDummy ∧ vch.length ≠ 0 then
    .error (.error .sigNullDummy)
  else popstack stack

/-- `OP_CHECKMULTISIG` and `OP_CHECKMULTISIGVERIFY`. -/
def opCheckMultisigs (ctx : Context) (thenVerify : Bool) (s : State) : Counted State :=
  Counted.after (multisigScriptCode ctx s) fun (args, scriptCode) =>
    let (calls, fSuccess) :=
      matchSignatures ctx s.stack scriptCode args.nKeysCount args.nSigsCount args.isig args.ikey
    (calls, fSuccess.bind fun fSuccess =>
      (popArgs ctx args.i s.stack).bind fun stack =>
        (pushVerdict thenVerify .checkMultiSigVerify fSuccess stack).map fun stack =>
          { s with stack := stack, nOpCount := args.nOpCount })

/-- `OP_IF` and `OP_NOTIF`. -/
def opIfs (fExec negated : Bool) (s : State) : Exec State :=
  if fExec then
    if s.stack.length < 1 then .error (.error .unbalancedConditional)
    else do
      let vch ← stacktop s.stack 1
      let stack ← popstack s.stack
      return { s with stack := stack, vfExec := (castToBool vch != negated) :: s.vfExec }
  else .ok { s with vfExec := false :: s.vfExec }

def toAltStack (s : State) : Exec State := do
  needs 1 s.stack
  let vch ← stacktop s.stack 1
  let stack ← popstack s.stack
  return { s with stack := stack, altstack := vch :: s.altstack }

def fromAltStack (s : State) : Exec State := do
  if s.altstack.length < 1 then .error (.error .invalidAltStackOperation)
  else
    let vch ← stacktop s.altstack 1
    let altstack ← popstack s.altstack
    return { s with stack := vch :: s.stack, altstack := altstack }

/-- The switch over the opcodes. -/
def execute (ctx : Context) (fExec : Bool) (opcode : UInt8) (s : State) : Counted State :=
  if opcode = op1Negate ∨ (op1 ≤ opcode ∧ opcode ≤ op16) then
    let bn := (opcode.toNat : ℤ) - (op1.toNat - 1)
    (0, .ok { s with stack := ScriptNum.serialize bn :: s.stack })
  else if opcode = opNop then (0, .ok s)
  else if opNop1 ≤ opcode ∧ opcode ≤ opNop10 then
    if hasFlag ctx.flags scriptVerifyDiscourageUpgradableNops then
      (0, .error (.error .discourageUpgradableNops))
    else (0, .ok s)
  else if opcode = opIf ∨ opcode = opNotIf then (0, opIfs fExec (opcode = opNotIf) s)
  else if opcode = opElse then
    match s.vfExec with
    | [] => (0, .error (.error .unbalancedConditional))
    | f :: vfExec => (0, .ok { s with vfExec := (!f) :: vfExec })
  else if opcode = opEndIf then
    match s.vfExec with
    | [] => (0, .error (.error .unbalancedConditional))
    | _ :: vfExec => (0, .ok { s with vfExec := vfExec })
  else if opcode = opReturn then (0, .error (.error .opReturn))
  else if opcode = opToAltStack then (0, toAltStack s)
  else if opcode = opFromAltStack then (0, fromAltStack s)
  else if opcode = SignatureHash.opCodeSeparator then (0, .ok { s with pbegincodehash := s.pc })
  else if opcode = opCheckSig ∨ opcode = opCheckSigVerify then
    (opCheckSigs ctx (opcode = opCheckSigVerify) s).map id fun r =>
      r.map fun stack => { s with stack := stack }
  else if opcode = opCheckMultiSig ∨ opcode = opCheckMultiSigVerify then
    opCheckMultisigs ctx (opcode = opCheckMultiSigVerify) s
  else
    match (stackOps ctx.hashes ctx.fRequireMinimal).lookup opcode with
    | some f => (0, (f s.stack).map fun stack => { s with stack := stack })
    | none => (0, .error (.error .badOpcode))

def disabledOpcodes : List UInt8 :=
  [opCat, opSubstr, opLeft, opRight, opInvert, opAnd, opOr, opXor, op2Mul, op2Div, opMul, opDiv,
    opMod, opLShift, opRShift]

/-- Reading an instruction, with the checks that are made whether it is executed or not. -/
def readInstruction (s : State) : Exec (UInt8 × Bytes × State) :=
  let op := getOp2 s.pc
  let nOpCount := if op16 < op.opcode then s.nOpCount + 1 else s.nOpCount
  if !op.ok then .error (.error .badOpcode)
  else if maxScriptElementSize < op.data.length then .error (.error .pushSize)
  else if op16 < op.opcode ∧ 201 < nOpCount then .error (.error .opCount)
  else if op.opcode ∈ disabledOpcodes then .error (.error .disabledOpcode)
  else .ok (op.opcode, op.data, { s with pc := op.pc, nOpCount := nOpCount })

/-- All enclosing conditions are true. -/
def State.fExec (s : State) : Bool := s.vfExec.all id

/-- The instruction, executed if the conditions are true or if it is about them. -/
def perform (ctx : Context) (opcode : UInt8) (vchPushValue : Bytes) (s : State) :
    Counted State :=
  if s.fExec ∧ opcode ≤ opPushData4 then
    if ctx.fRequireMinimal ∧ !checkMinimalPush vchPushValue opcode then
      (0, .error (.error .minimalData))
    else (0, .ok { s with stack := vchPushValue :: s.stack })
  else if s.fExec ∨ (opIf ≤ opcode ∧ opcode ≤ opEndIf) then execute ctx s.fExec opcode s
  else (0, .ok s)

def sizeLimit (s : State) : Exec State :=
  if 1000 < s.stack.length + s.altstack.length then .error (.error .stackSize) else .ok s

/-- One turn of the loop. -/
def step (ctx : Context) (s : State) : Counted State :=
  Counted.after (readInstruction s) fun (opcode, vchPushValue, s) =>
    (perform ctx opcode vchPushValue s).map id fun r => r.bind sizeLimit

def evalLoop (ctx : Context) : ℕ → State → Counted State
  | 0, s => if s.pc = [] then (0, .ok s) else (0, .error .outOfTurns)
  | turns + 1, s =>
    if s.pc = [] then (0, .ok s)
    else
      match step ctx s with
      | (calls, .error stop) => (calls, .error stop)
      | (calls, .ok s) => (evalLoop ctx turns s).map (calls + ·) id

/-- The handler for all exceptions. -/
def Stop.caught : Stop → Stop
  | .notNumber _ => .error .unknownError
  | .outOfRange => .error .unknownError
  | stop => stop

def State.start (stack : List Bytes) (script : CScript) : State :=
  { pc := script, pbegincodehash := script, stack := stack }

/-- Every turn reads an opcode, so the length of the script bounds the number of turns. -/
def evalScript (ctx : Context) (stack : List Bytes) (script : CScript) : Counted (List Bytes) :=
  if 10000 < script.length then (0, .error (.error .scriptSize))
  else
    (evalLoop ctx script.length (State.start stack script)).map id fun r =>
      match r with
      | .error stop => .error stop.caught
      | .ok s => if s.vfExec ≠ [] then .error (.error .unbalancedConditional) else .ok s.stack

/-- The stack says true. -/
def checkTop (stack : List Bytes) : Exec Unit :=
  match stack with
  | [] => .error (.error .evalFalse)
  | vch :: _ => if castToBool vch then .ok () else .error (.error .evalFalse)

/-- The evaluation of the script whose hash is paid. -/
def evalRedeemScript (ctx : Context) (stackCopy : List Bytes) : Counted Unit :=
  match stackCopy with
  | [] => (0, .error .assertion)
  | pubKeySerialized :: stackCopy =>
    (evalScript ctx stackCopy pubKeySerialized).map id fun r => r.bind checkTop

/-- The calls of `CheckSig` that `VerifyScript` makes for the scripts of input and output and for
the redeem script, and its outcome. -/
structure Verification where
  nCallsScriptSig : ℕ := 0
  nCallsScriptPubKey : ℕ := 0
  nCallsRedeemScript : ℕ := 0
  outcome : Exec Unit

def verifyScript (ctx : Context) (scriptSig scriptPubKey : CScript) : Verification :=
  if hasFlag ctx.flags scriptVerifySigPushOnly ∧ !isPushOnly scriptSig then
    { outcome := .error (.error .sigPushOnly) }
  else
    match evalScript ctx [] scriptSig with
    | (n, .error stop) => { nCallsScriptSig := n, outcome := .error stop }
    | (n, .ok stackCopy) =>
      match evalScript ctx stackCopy scriptPubKey with
      | (k, .error stop) =>
        { nCallsScriptSig := n, nCallsScriptPubKey := k, outcome := .error stop }
      | (k, .ok stack) =>
        match checkTop stack with
        | .error stop =>
          { nCallsScriptSig := n, nCallsScriptPubKey := k, outcome := .error stop }
        | .ok () =>
          if hasFlag ctx.flags scriptVerifyP2SH ∧ isPayToScriptHash scriptPubKey then
            if !isPushOnly scriptSig then
              { nCallsScriptSig := n
                nCallsScriptPubKey := k
                outcome := .error (.error .sigPushOnly) }
            else
              let (l, outcome) := evalRedeemScript ctx stackCopy
              { nCallsScriptSig := n
                nCallsScriptPubKey := k
                nCallsRedeemScript := l
                outcome := outcome }
          else { nCallsScriptSig := n, nCallsScriptPubKey := k, outcome := .ok () }

end Scrypta.Interpreter
