import Scrypta.Script

/-! Numbers in scripts. A number is stored in as few bytes as it takes, the least significant
first, with its sign in the topmost bit. -/

namespace Scrypta.ScriptNum

def op0 : UInt8 := 0x00
def op1Negate : UInt8 := 0x4f

/-- The bytes of `absvalue`; 64 bits take at most eight. -/
def magnitude : ℕ → ℕ → Bytes
  | 0, _ => []
  | turns + 1, absvalue =>
    if absvalue = 0 then [] else UInt8.ofNat absvalue :: magnitude turns (absvalue / 256)

def serialize (value : ℤ) : Bytes :=
  let result := magnitude 8 value.natAbs
  match result.getLast? with
  | none => []
  | some back =>
    if back &&& 0x80 ≠ 0 then result ++ [if value < 0 then 0x80 else 0]
    else if value < 0 then result.dropLast ++ [back ||| 0x80]
    else result

/-- `<<` for bytes. -/
def pushData (b : Bytes) : CScript :=
  if b.length < Script.opPushData1.toNat then UInt8.ofNat b.length :: b
  else if b.length ≤ 0xff then Script.opPushData1 :: UInt8.ofNat b.length :: b
  else if b.length ≤ 0xffff then
    Script.opPushData2 :: UInt8.ofNat b.length :: UInt8.ofNat (b.length / 256) :: b
  else
    Script.opPushData4 :: UInt8.ofNat b.length :: UInt8.ofNat (b.length / 256) ::
      UInt8.ofNat (b.length / 65536) :: UInt8.ofNat (b.length / 16777216) :: b

/-- `<<` for an integer. -/
def pushInt64 (n : ℤ) : CScript :=
  if n = -1 ∨ (1 ≤ n ∧ n ≤ 16) then [UInt8.ofNat (n + (Script.op1.toNat - 1)).toNat]
  else if n = 0 then [op0]
  else pushData (serialize n)

example : pushInt64 300 = [2, 0x2c, 0x01] := by decide

end Scrypta.ScriptNum
