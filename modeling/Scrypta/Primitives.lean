import Mathlib.Algebra.GroupWithZero.Nat
import Mathlib.Algebra.Ring.Int.Defs
import Mathlib.Data.Int.Notation
import Mathlib.Data.List.Basic

/-! Outpoints, inputs, outputs and transactions. A transaction carries the hash that the
program caches in it when it is read from the wire; a transaction built by its default
constructor carries the null hash. -/

namespace Scrypta

abbrev Uint256 := BitVec 256
abbrev Bytes := List UInt8
abbrev CScript := Bytes
abbrev CAmount := ℤ

instance : LawfulBEq Uint256 := instLawfulBEq

/-- The 64 hexadecimal digits of `uint256::ToString`. -/
def Uint256.toHex (x : Uint256) : String :=
  String.ofList ((List.range 64).map fun i => Nat.digitChar (x.toNat / 16 ^ (63 - i) % 16))

/-- What is left of a wider integer when it is stored in an `int`. -/
def toInt32 (x : ℤ) : ℤ := x.bmod (2 ^ 32)

/-- What is left of a result outside of the 64-bit range. -/
def toInt64 (x : ℤ) : ℤ := x.bmod (2 ^ 64)

theorem toInt32_eq_self {x : ℤ} (hlo : -2 ^ 31 ≤ x) (hhi : x < 2 ^ 31) : toInt32 x = x :=
  Int.bmod_eq_of_le (by omega) (by omega)

theorem toInt64_eq_self {x : ℤ} (hlo : -2 ^ 63 ≤ x) (hhi : x < 2 ^ 63) : toInt64 x = x :=
  Int.bmod_eq_of_le (by omega) (by omega)

/-- What an `int` becomes when it is stored in an `unsigned int`. -/
def toUInt32 (x : ℤ) : ℕ := (x % 2 ^ 32).toNat

def coin : CAmount := 100000000

/-- `CAmount` is a signed 64-bit integer. -/
def maxAmount : CAmount := 2 ^ 63 - 1

structure COutPoint where
  hash : Uint256
  n : BitVec 32
  deriving DecidableEq, Repr

def COutPoint.toStringShort (o : COutPoint) : String :=
  o.hash.toHex ++ "-" ++ toString o.n.toNat

def COutPoint.null : COutPoint := ⟨0, BitVec.allOnes 32⟩

def COutPoint.isNull (o : COutPoint) : Bool := o.hash == 0 && o.n == BitVec.allOnes 32

structure CTxIn where
  prevout : COutPoint
  scriptSig : CScript := []
  nSequence : BitVec 32 := BitVec.allOnes 32
  deriving DecidableEq, Repr

structure CTxOut where
  nValue : CAmount
  scriptPubKey : CScript
  nRounds : ℤ := -10
  deriving DecidableEq, Repr

namespace CTxOut

def null : CTxOut := ⟨-1, [], -10⟩

def isNull (o : CTxOut) : Bool := o.nValue == -1

def isEmpty (o : CTxOut) : Bool := o.nValue == 0 && o.scriptPubKey.isEmpty

end CTxOut

structure CTransaction where
  hash : Uint256
  nVersion : ℤ
  vin : List CTxIn
  vout : List CTxOut
  nLockTime : BitVec 32
  deriving DecidableEq, Repr

namespace CTransaction

/-- The default constructor: no inputs, no outputs, and a hash that was never computed. -/
def null : CTransaction := ⟨0, 1, [], [], 0⟩

def getHash (tx : CTransaction) : Uint256 := tx.hash

def prevouts (tx : CTransaction) : List COutPoint := tx.vin.map (·.prevout)

def isCoinBase (tx : CTransaction) : Bool :=
  match tx.vin with
  | [i] => i.prevout.isNull
  | _ => false

def isCoinStake (tx : CTransaction) : Bool :=
  match tx.vin, tx.vout with
  | i :: _, o :: _ :: _ => !i.prevout.isNull && o.isEmpty
  | _, _ => false

/-- The sum of the outputs; `none` is the exception on a negative value or on a sum that
leaves the 64-bit range. -/
def getValueOut (tx : CTransaction) : Option CAmount :=
  tx.vout.foldlM (fun nValueOut o =>
    if o.nValue < 0 then none
    else if maxAmount < nValueOut + o.nValue then none
    else some (nValueOut + o.nValue)) 0

end CTransaction

end Scrypta
