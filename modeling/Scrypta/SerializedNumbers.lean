import Scrypta.Toolkit.CompactSize
import Scrypta.Toolkit.VarInt

/-! The numbers that `serialize.h` writes: variable-length integers and the lengths of vectors. -/

namespace Scrypta.Serialize

def MAX_SIZE : ℕ := 0x02000000

/-- `WriteVarInt` for an unsigned number of `w` bits; `none` where `tmp` has no room. -/
def writeVarInt (w n : ℕ) : Option (List UInt8) := VarInt.writeIn w n

def getSizeOfVarInt (w n : ℕ) : Option ℕ := VarInt.sizeOf w n

def readVarInt (w : ℕ) (bs : List UInt8) : Option (ℕ × List UInt8) := VarInt.read w bs

def getSizeOfCompactSize (nSize : ℕ) : ℕ := CompactSize.sizeOf nSize

def writeCompactSize (nSize : ℕ) : List UInt8 := CompactSize.write nSize

def readCompactSize (bs : List UInt8) : Option (ℕ × List UInt8) := CompactSize.read MAX_SIZE bs

/-- Variable-length integers are a bijection, and lengths have one form each. -/
theorem numbers_bijective {w : ℕ} (hw : 0 < w) :
    (∀ n < 2 ^ w, ∃ bs, writeVarInt w n = some bs ∧ bs.length ≤ (w + 6) / 7 ∧
      getSizeOfVarInt w n = some bs.length ∧ ∀ rest, readVarInt w (bs ++ rest) = some (n, rest)) ∧
    (∀ highs last, (∀ b ∈ highs, 128 ≤ b.toNat) → last.toNat < 128 →
      VarInt.value highs last < 2 ^ w →
      writeVarInt w (VarInt.value highs last) = some (highs ++ [last]) ∧
      ∀ rest, readVarInt w (highs ++ last :: rest) = some (VarInt.value highs last, rest)) ∧
    (∀ bs nSize rest, readCompactSize bs = some (nSize, rest) ↔
      nSize ≤ MAX_SIZE ∧ bs = writeCompactSize nSize ++ rest) ∧
    ∀ nSize, (writeCompactSize nSize).length = getSizeOfCompactSize nSize := by
  refine ⟨fun n hn => ⟨VarInt.write w n, VarInt.writeIn_eq hw hn, VarInt.length_write_le w n,
    VarInt.sizeOf_eq hw hn, VarInt.read_write hw hn⟩, ?_, ?_, CompactSize.length_write⟩
  · intro highs last hhigh hlast hvalue
    have hwrite := VarInt.write_value hw hhigh hlast hvalue
    refine ⟨(VarInt.writeIn_eq hw hvalue).trans (congrArg some hwrite), fun rest => ?_⟩
    have hread := VarInt.read_write hw hvalue rest
    rwa [hwrite, List.append_assoc] at hread
  · intro bs nSize rest
    refine CompactSize.read_eq_some_iff.trans ⟨fun h => ⟨h.1, h.2.2⟩, fun h => ⟨h.1, ?_, h.2⟩⟩
    have hmax : MAX_SIZE < 2 ^ 64 := by decide
    omega

theorem numbers_bijective_both :
    (∃ bs, writeVarInt 32 16512 = some bs ∧ readVarInt 32 (bs ++ [7]) = some (16512, [7])) ∧
      ∃ bs, writeVarInt 64 (2 ^ 32) = some bs ∧ bs.length ≤ 10 := by
  obtain ⟨bs, hbs, -, -, hread⟩ :=
    (numbers_bijective (show 0 < 32 by decide)).1 16512 (by decide)
  obtain ⟨bs', hbs', hlen, -⟩ :=
    (numbers_bijective (show 0 < 64 by decide)).1 (2 ^ 32) (by decide)
  exact ⟨⟨bs, hbs, hread [7]⟩, bs', hbs', hlen⟩

example : [0, 128, 16511, 16512, 2 ^ 32].map (writeVarInt 64) =
    [[0], [0x80, 0], [0xFF, 0x7F], [0x80, 0x80, 0], [0x8E, 0xFE, 0xFE, 0xFF, 0]].map some := by
  decide

end Scrypta.Serialize
