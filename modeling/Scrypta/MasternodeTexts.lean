import Scrypta.Primitives
import Scrypta.Script
import Scrypta.Toolkit.Digits

/-! The keys, addresses and inputs in masternode messages, and the texts that are signed. A text
is cut together from its parts without separators; the results say which parts can be read back
from it. -/

namespace Scrypta.Masternodes

/-- `CPubKey::GetLen` -/
def getLen (chHeader : UInt8) : ℕ :=
  if chHeader = 2 ∨ chHeader = 3 then 33
  else if chHeader = 4 ∨ chHeader = 6 ∨ chHeader = 7 then 65
  else 0

/-- The bytes from `begin()` to `end()`; an invalid key has none. -/
@[ext] structure CPubKey where
  vch : Bytes
  size_eq : vch.length = vch.head?.elim 0 getLen
  deriving DecidableEq

@[ext] structure CService where
  ip : BitVec 128
  port : BitVec 16
  deriving DecidableEq, Repr

/-- The functions that do not change during a run: message verification, the hashes of broadcasts
and pings over the fields that they cover, key hashes, and the printed forms of IPv6 addresses and
of scripts. -/
structure Oracles where
  verifyMessage : CPubKey → Bytes → String → Bool
  hashBroadcast : ℤ → CPubKey → Uint256
  hashPing : CTxIn → ℤ → Uint256
  keyID : CPubKey → BitVec 160
  ipv6ToString : BitVec 128 → String
  scriptToString : CScript → String

namespace CService

def isIPv4 (addr : CService) : Bool := addr.ip.toNat / 2 ^ 32 == 0xffff

def isTor (addr : CService) : Bool := addr.ip.toNat / 2 ^ 80 == 0xfd87d87eeb43

def getByte (addr : CService) (n : ℕ) : ℕ := addr.ip.toNat / 256 ^ n % 256

/-- The alphabet of `EncodeBase32`. -/
def base32 (d : ℕ) : Char := if d < 26 then Char.ofNat (97 + d) else Char.ofNat (24 + d)

variable (orc : Oracles)

def toStringIP (addr : CService) : String :=
  if addr.isTor then
    String.ofList (Digits.fixed base32 32 16 (addr.ip.toNat % 2 ^ 80)) ++ ".onion"
  else if addr.isIPv4 then
    toString (addr.getByte 3) ++ "." ++ toString (addr.getByte 2) ++ "." ++
      toString (addr.getByte 1) ++ "." ++ toString (addr.getByte 0)
  else orc.ipv6ToString addr.ip

def toString (addr : CService) : String :=
  if addr.isIPv4 || addr.isTor then
    addr.toStringIP orc ++ ":" ++ ToString.toString addr.port.toNat
  else "[" ++ addr.toStringIP orc ++ "]:" ++ ToString.toString addr.port.toNat

end CService

section Inputs

/-- A string of bytes, byte by byte. -/
def bytesToString (b : Bytes) : String := String.ofList (b.map fun x => Char.ofNat x.toNat)

def hexStr (b : Bytes) : String :=
  String.ofList (b.flatMap fun x => [Nat.digitChar (x.toNat / 16), Nat.digitChar (x.toNat % 16)])

def outPointToString (prevout : COutPoint) : String :=
  "COutPoint(" ++ prevout.hash.toHex ++ ", " ++ toString prevout.n.toNat ++ ")"

variable (orc : Oracles)

/-- What `CTxIn::ToString` writes between the outpoint and the last parenthesis. -/
def txInTail (vin : CTxIn) : String :=
  (if vin.prevout.isNull then ", coinbase " ++ hexStr vin.scriptSig
    else ", scriptSig=" ++ String.ofList ((orc.scriptToString vin.scriptSig).toList.take 24)) ++
  (if vin.nSequence = BitVec.allOnes 32 then "" else ", nSequence=" ++ toString vin.nSequence.toNat)

def txInToString (vin : CTxIn) : String :=
  "CTxIn(" ++ outPointToString vin.prevout ++ txInTail orc vin ++ ")"

end Inputs

/-- How the printed forms are known to look: an IPv6 address has its own text without a bracket,
and the text of a script has no parenthesis. -/
structure Texts (orc : Oracles) : Prop where
  ipv6_injective : Function.Injective orc.ipv6ToString
  ipv6_bracket : ∀ ip, ']' ∉ (orc.ipv6ToString ip).toList
  script_paren : ∀ script, ')' ∉ (orc.scriptToString script).toList

/-! Reading a text back. -/

section Addresses

open Digits

variable {orc : Oracles}

theorem base32_inj : ∀ c < 32, ∀ d < 32, CService.base32 c = CService.base32 d → c = d := by
  decide

theorem base32_isLower_or_isDigit :
    ∀ c < 32, (CService.base32 c).isLower = true ∨ (CService.base32 c).isDigit = true := by
  decide

/-- The characters of IPv4 and Tor names. -/
def isNameChar (c : Char) : Bool := c == '.' || c.isLower || c.isDigit

theorem isNameChar_of_isDigit {c : Char} (h : c.isDigit = true) : isNameChar c = true := by
  simp [isNameChar, h]

theorem notMem_of_isDigit {n : ℕ} {c : Char} (hc : c.isDigit = false) :
    c ∉ (toString n).toList := by
  intro hmem
  rw [isDigit_of_mem_nat hmem] at hc
  exact Bool.noConfusion hc

theorem toList_tor {addr : CService} (h : addr.isTor = true) :
    (addr.toStringIP orc).toList =
      fixed CService.base32 32 16 (addr.ip.toNat % 2 ^ 80) ++ ".onion".toList := by
  rw [CService.toStringIP, if_pos h, String.toList_append, String.toList_ofList]

theorem toList_ipv4 {addr : CService} (htor : addr.isTor = false) (h : addr.isIPv4 = true) :
    (addr.toStringIP orc).toList =
      (toString (addr.getByte 3)).toList ++ '.' :: ((toString (addr.getByte 2)).toList ++
        '.' :: ((toString (addr.getByte 1)).toList ++
          '.' :: (toString (addr.getByte 0)).toList)) := by
  rw [CService.toStringIP, if_neg (by simp [htor]), if_pos h]
  simp only [String.toList_append, List.append_assoc]
  rfl

theorem isNameChar_of_mem {addr : CService} (h : (addr.isIPv4 || addr.isTor) = true) {c : Char}
    (hc : c ∈ (addr.toStringIP orc).toList) : isNameChar c = true := by
  by_cases htor : addr.isTor = true
  · rw [toList_tor htor, List.mem_append] at hc
    rcases hc with hdigit | honion
    · obtain ⟨d, hd, rfl⟩ := mem_fixed (by decide) hdigit
      rcases base32_isLower_or_isDigit d hd with hlow | hnum
      · simp [isNameChar, hlow]
      · exact isNameChar_of_isDigit hnum
    · exact List.all_eq_true.mp (show ".onion".toList.all isNameChar = true by decide) c honion
  · have htor : addr.isTor = false := by simpa using htor
    have hip : addr.isIPv4 = true := by simpa [htor] using h
    rw [toList_ipv4 htor hip] at hc
    simp only [List.mem_append, List.mem_cons] at hc
    rcases hc with hc | rfl | hc | rfl | hc | rfl | hc
    · exact isNameChar_of_isDigit (isDigit_of_mem_nat hc)
    · rfl
    · exact isNameChar_of_isDigit (isDigit_of_mem_nat hc)
    · rfl
    · exact isNameChar_of_isDigit (isDigit_of_mem_nat hc)
    · rfl
    · exact isNameChar_of_isDigit (isDigit_of_mem_nat hc)

theorem ip_eq_of_tor {addr addr' : CService} (h : addr.isTor = true) (h' : addr'.isTor = true)
    (hname : (addr.toStringIP orc).toList = (addr'.toStringIP orc).toList) :
    addr.ip = addr'.ip := by
  rw [toList_tor h, toList_tor h'] at hname
  have hlow : addr.ip.toNat % 2 ^ 80 = addr'.ip.toNat % 2 ^ 80 :=
    fixed_inj base32_inj (Nat.mod_lt _ (by decide)) (Nat.mod_lt _ (by decide))
      (List.append_cancel_right hname)
  have hhigh : addr.ip.toNat / 2 ^ 80 = addr'.ip.toNat / 2 ^ 80 :=
    (of_decide_eq_true h).trans (of_decide_eq_true h').symm
  apply BitVec.eq_of_toNat_eq
  rw [← Nat.div_add_mod addr.ip.toNat (2 ^ 80), hhigh, hlow, Nat.div_add_mod]

theorem byte_mod (x : ℕ) {j : ℕ} (hj : j < 4) :
    x % 2 ^ 32 / 256 ^ j % 256 = x / 256 ^ j % 256 := by
  have hsplit : 2 ^ 32 = 256 ^ j * 256 ^ (4 - j) := by
    rw [← pow_add, Nat.add_sub_cancel' hj.le]
    rfl
  rw [hsplit, Nat.mod_mul_right_div_self,
    Nat.mod_mod_of_dvd _ (dvd_pow_self 256 (Nat.sub_ne_zero_of_lt hj))]

theorem ip_eq_of_ipv4 {addr addr' : CService} (htor : addr.isTor = false)
    (htor' : addr'.isTor = false) (h : addr.isIPv4 = true) (h' : addr'.isIPv4 = true)
    (hname : (addr.toStringIP orc).toList = (addr'.toStringIP orc).toList) :
    addr.ip = addr'.ip := by
  have hdot : ∀ n : ℕ, '.' ∉ (toString n).toList := fun n => notMem_of_isDigit rfl
  rw [toList_ipv4 htor h, toList_ipv4 htor' h'] at hname
  obtain ⟨h3, hname⟩ := append_sep_inj (hdot _) (hdot _) hname
  obtain ⟨h2, hname⟩ := append_sep_inj (hdot _) (hdot _) hname
  obtain ⟨h1, h0⟩ := append_sep_inj (hdot _) (hdot _) hname
  have hbyte : ∀ j < 4, addr.ip.toNat % 2 ^ 32 / 256 ^ j % 256 =
      addr'.ip.toNat % 2 ^ 32 / 256 ^ j % 256 := by
    intro j hj
    rw [byte_mod _ hj, byte_mod _ hj]
    match j, hj with
    | 0, _ => exact toString_nat_inj h0
    | 1, _ => exact toString_nat_inj h1
    | 2, _ => exact toString_nat_inj h2
    | 3, _ => exact toString_nat_inj h3
  have hlow : addr.ip.toNat % 2 ^ 32 = addr'.ip.toNat % 2 ^ 32 :=
    eq_of_digits hbyte (Nat.mod_lt _ (by decide)) (Nat.mod_lt _ (by decide))
  have hhigh : addr.ip.toNat / 2 ^ 32 = addr'.ip.toNat / 2 ^ 32 :=
    (of_decide_eq_true h).trans (of_decide_eq_true h').symm
  apply BitVec.eq_of_toNat_eq
  rw [← Nat.div_add_mod addr.ip.toNat (2 ^ 32), hhigh, hlow, Nat.div_add_mod]

theorem tor_ne_ipv4 {addr addr' : CService} (h : addr.isTor = true) (htor' : addr'.isTor = false)
    (h' : addr'.isIPv4 = true) :
    (addr.toStringIP orc).toList ≠ (addr'.toStringIP orc).toList := by
  intro hname
  have hmem : 'o' ∈ (addr'.toStringIP orc).toList := by
    rw [← hname, toList_tor h]
    exact List.mem_append_right _ (by decide)
  rw [toList_ipv4 htor' h'] at hmem
  have ho : ∀ n : ℕ, 'o' ∉ (toString n).toList := fun n => notMem_of_isDigit rfl
  simp only [List.mem_append, List.mem_cons, ho, false_or, or_false] at hmem
  exact absurd hmem (by decide)

/-- The text of an address tells the address. -/
theorem toStringIP_inj (horc : Texts orc) {addr addr' : CService}
    (hkind : (addr.isIPv4 || addr.isTor) = (addr'.isIPv4 || addr'.isTor))
    (hname : (addr.toStringIP orc).toList = (addr'.toStringIP orc).toList) :
    addr.ip = addr'.ip := by
  cases htor : addr.isTor <;> cases htor' : addr'.isTor
  · cases hip : addr.isIPv4
    · have hip' : addr'.isIPv4 = false := by simpa [htor, htor', hip] using hkind.symm
      simp only [CService.toStringIP, htor, htor', hip, hip', Bool.false_eq_true, if_false] at hname
      exact horc.ipv6_injective (String.toList_inj.mp hname)
    · have hip' : addr'.isIPv4 = true := by simpa [htor, htor', hip] using hkind.symm
      exact ip_eq_of_ipv4 htor htor' hip hip' hname
  · cases hip : addr.isIPv4
    · simp [htor, htor', hip] at hkind
    · exact absurd hname.symm (tor_ne_ipv4 htor' htor hip)
  · cases hip' : addr'.isIPv4
    · simp [htor, htor', hip'] at hkind
    · exact absurd hname (tor_ne_ipv4 htor htor' hip')
  · exact ip_eq_of_tor htor htor' hname

theorem toList_dotted {addr : CService} (h : (addr.isIPv4 || addr.isTor) = true) :
    (addr.toString orc).toList =
      (addr.toStringIP orc).toList ++ ':' :: (toString addr.port.toNat).toList := by
  rw [CService.toString, if_pos h]
  simp

theorem toList_bracketed {addr : CService} (h : (addr.isIPv4 || addr.isTor) = false) :
    (addr.toString orc).toList = '[' :: ((addr.toStringIP orc).toList ++
      ']' :: ':' :: (toString addr.port.toNat).toList) := by
  rw [CService.toString, if_neg (by simp [h])]
  simp

theorem notMem_of_dotted {addr : CService} {c : Char} (h : (addr.isIPv4 || addr.isTor) = true)
    (hc : isNameChar c = false) : c ∉ (addr.toStringIP orc).toList := by
  intro hmem
  rw [isNameChar_of_mem h hmem] at hc
  exact Bool.noConfusion hc

theorem notMem_of_bracketed (horc : Texts orc) {addr : CService}
    (h : (addr.isIPv4 || addr.isTor) = false) : ']' ∉ (addr.toStringIP orc).toList := by
  obtain ⟨hip, htor⟩ := Bool.or_eq_false_iff.mp h
  simp only [CService.toStringIP, hip, htor, Bool.false_eq_true, if_false]
  exact horc.ipv6_bracket addr.ip

theorem dotted_ne_bracketed {addr addr' : CService} {xs ys : List Char}
    (h : (addr.isIPv4 || addr.isTor) = true) (h' : (addr'.isIPv4 || addr'.isTor) = false) :
    (addr.toString orc).toList ++ xs ≠ (addr'.toString orc).toList ++ ys := by
  intro heq
  rw [toList_dotted h, toList_bracketed h'] at heq
  cases hip : (addr.toStringIP orc).toList with
  | nil => simp [hip] at heq
  | cons c cs =>
    rw [hip] at heq
    obtain ⟨rfl, _⟩ := List.cons.inj heq
    exact notMem_of_dotted h (c := '[') (by decide) (by rw [hip]; exact List.mem_cons_self)

/-- With the port known, an address can be read off the front of a text. -/
theorem address_append_inj (horc : Texts orc) {addr addr' : CService} {xs ys : List Char}
    (hport : addr.port = addr'.port)
    (h : (addr.toString orc).toList ++ xs = (addr'.toString orc).toList ++ ys) :
    addr = addr' ∧ xs = ys := by
  have hrest : addr.ip = addr'.ip ∧ xs = ys := by
    cases hk : addr.isIPv4 || addr.isTor <;> cases hk' : addr'.isIPv4 || addr'.isTor
    · rw [toList_bracketed hk, toList_bracketed hk', hport] at h
      simp only [List.cons_append, List.append_assoc] at h
      obtain ⟨hname, htail⟩ := append_sep_inj (notMem_of_bracketed horc hk)
        (notMem_of_bracketed horc hk') (List.cons.inj h).2
      exact ⟨toStringIP_inj horc (hk.trans hk'.symm) hname,
        List.append_cancel_left (List.cons.inj htail).2⟩
    · exact absurd h.symm (dotted_ne_bracketed hk' hk)
    · exact absurd h (dotted_ne_bracketed hk hk')
    · rw [toList_dotted hk, toList_dotted hk', hport] at h
      simp only [List.append_assoc, List.cons_append] at h
      obtain ⟨hname, htail⟩ := append_sep_inj (notMem_of_dotted hk (c := ':') (by decide))
        (notMem_of_dotted hk' (c := ':') (by decide)) h
      exact ⟨toStringIP_inj horc (hk.trans hk'.symm) hname, List.append_cancel_left htail⟩
  exact ⟨CService.ext hrest.1 hport, hrest.2⟩

/-- The text of an address does not start with `C`. -/
theorem address_head {addr : CService} {xs : List Char} :
    ((addr.toString orc).toList ++ xs).head? ≠ some 'C' := by
  intro h
  cases hk : addr.isIPv4 || addr.isTor
  · rw [toList_bracketed hk] at h
    exact absurd (Option.some.inj h) (by decide)
  · rw [toList_dotted hk] at h
    cases hip : (addr.toStringIP orc).toList with
    | nil =>
      rw [hip] at h
      exact absurd (Option.some.inj h) (by decide)
    | cons c cs =>
      rw [hip] at h
      obtain rfl : c = 'C' := Option.some.inj h
      exact notMem_of_dotted hk (c := 'C') (by decide) (by rw [hip]; exact List.mem_cons_self)

end Addresses

section Keys

open Digits

set_option maxRecDepth 2000 in
theorem charOfByte_injective : Function.Injective fun x : UInt8 => Char.ofNat x.toNat := by
  have hback : ∀ n < 256, (Char.ofNat n).toNat = n := by decide
  intro x y hxy
  apply UInt8.toNat_inj.mp
  rw [← hback _ x.toNat_lt, ← hback _ y.toNat_lt]
  exact congrArg Char.toNat hxy

theorem toList_bytesToString (b : Bytes) :
    (bytesToString b).toList = b.map fun x => Char.ofNat x.toNat := by
  rw [bytesToString, String.toList_ofList]

/-- No number contains the first byte of a key. -/
theorem header_notMem {h : UInt8} (hlen : getLen h ≠ 0) {z : ℤ} :
    Char.ofNat h.toNat ∉ (toString z).toList := by
  have hheader : h = 2 ∨ h = 3 ∨ h = 4 ∨ h = 6 ∨ h = 7 := by
    unfold getLen at hlen
    split at hlen
    · next h2 => exact h2.elim Or.inl fun h3 => Or.inr (Or.inl h3)
    · split at hlen
      · next h4 => exact Or.inr (Or.inr h4)
      · exact absurd rfl hlen
  have hplain : Char.ofNat h.toNat ≠ '-' ∧ (Char.ofNat h.toNat).isDigit = false := by
    rcases hheader with rfl | rfl | rfl | rfl | rfl <;> decide
  intro hmem
  rcases mem_toString_int hmem with hsign | hdigit
  · exact hplain.1 hsign
  · rw [hplain.2] at hdigit
    exact Bool.noConfusion hdigit

theorem CPubKey.getLen_head {key : CPubKey} {h : UInt8} {t : Bytes} (hvch : key.vch = h :: t) :
    t.length + 1 = getLen h := by
  have hsize := key.size_eq
  rwa [hvch] at hsize

theorem CPubKey.length_eq {key key' : CPubKey} {c : UInt8} {t t' : Bytes}
    (hvch : key.vch = c :: t) (hvch' : key'.vch = c :: t') :
    key.vch.length = key'.vch.length := by
  rw [key.size_eq, key'.size_eq, hvch, hvch']
  rfl

/-- A number does not start like a key. -/
theorem key_ne_numeral {key : CPubKey} {c : UInt8} {t : Bytes} {z z' : ℤ}
    (hvch : key.vch = c :: t) :
    (bytesToString key.vch).toList ++ (toString z).toList ≠ (toString z').toList := by
  intro heq
  apply header_notMem (h := c) (z := z')
  · rw [← CPubKey.getLen_head hvch]
    exact Nat.succ_ne_zero _
  · rw [← heq, hvch, toList_bytesToString]
    exact List.mem_append_left _ List.mem_cons_self

/-- A key and the number after it can be told apart. -/
theorem key_append_inj {key key' : CPubKey} {z z' : ℤ}
    (h : (bytesToString key.vch).toList ++ (toString z).toList =
      (bytesToString key'.vch).toList ++ (toString z').toList) : key = key' ∧ z = z' := by
  cases hvch : key.vch with
  | nil =>
    cases hvch' : key'.vch with
    | nil =>
      rw [hvch, hvch'] at h
      exact ⟨CPubKey.ext (hvch.trans hvch'.symm), toString_int_inj (List.append_cancel_left h)⟩
    | cons c t =>
      rw [hvch] at h
      exact absurd h.symm (key_ne_numeral hvch')
  | cons c t =>
    cases hvch' : key'.vch with
    | nil =>
      rw [hvch'] at h
      exact absurd h (key_ne_numeral hvch)
    | cons c' t' =>
      rw [toList_bytesToString, toList_bytesToString] at h
      have hhead : c = c' := by
        rw [hvch, hvch'] at h
        exact charOfByte_injective (List.cons.inj h).1
      subst hhead
      obtain ⟨hkey, hnum⟩ := List.append_inj h
        (by rw [List.length_map, List.length_map, CPubKey.length_eq hvch hvch'])
      exact ⟨CPubKey.ext (List.map_injective_iff.mpr charOfByte_injective hkey),
        toString_int_inj hnum⟩

/-- A number in front of a key ends where the key starts. -/
theorem number_append_inj {key : CPubKey} (hkey : key.vch ≠ []) {z z' : ℤ} {xs ys : List Char}
    (h : (toString z).toList ++ ((bytesToString key.vch).toList ++ xs) =
      (toString z').toList ++ ((bytesToString key.vch).toList ++ ys)) : z = z' ∧ xs = ys := by
  obtain ⟨c, t, hvch⟩ := List.exists_cons_of_ne_nil hkey
  have hlen : getLen c ≠ 0 := by
    rw [← CPubKey.getLen_head hvch]
    exact Nat.succ_ne_zero _
  rw [toList_bytesToString, hvch, List.map_cons, List.cons_append, List.cons_append] at h
  obtain ⟨hnum, hrest⟩ := append_sep_inj (header_notMem hlen) (header_notMem hlen) h
  exact ⟨toString_int_inj hnum, List.append_cancel_left hrest⟩

end Keys

section Inputs

open Digits

variable {orc : Oracles}

theorem toList_toHex (x : Uint256) : x.toHex.toList = fixed Nat.digitChar 16 64 x.toNat := by
  rw [Uint256.toHex, String.toList_ofList]
  rfl

theorem digitChar_inj : ∀ c < 16, ∀ d < 16, Nat.digitChar c = Nat.digitChar d → c = d := by
  decide

/-- A hash can be read off the front of a text. -/
theorem toHex_append_inj {x y : Uint256} {xs ys : List Char}
    (h : x.toHex.toList ++ xs = y.toHex.toList ++ ys) : x = y ∧ xs = ys := by
  rw [toList_toHex, toList_toHex] at h
  obtain ⟨hhex, hrest⟩ := List.append_inj h (by simp)
  exact ⟨BitVec.eq_of_toNat_eq (fixed_inj digitChar_inj x.isLt y.isLt hhex), hrest⟩

theorem paren_notMem_nat (n : ℕ) : ')' ∉ (toString n).toList := notMem_of_isDigit rfl

set_option maxRecDepth 2000 in
theorem paren_notMem_hexStr (b : Bytes) : ')' ∉ (hexStr b).toList := by
  have hhex : ∀ n < 256, ')' ≠ Nat.digitChar (n / 16) ∧ ')' ≠ Nat.digitChar (n % 16) := by
    decide
  rw [hexStr, String.toList_ofList, List.mem_flatMap]
  intro hmem
  obtain ⟨x, _, hx⟩ := hmem
  rcases List.mem_cons.mp hx with hhigh | hlow
  · exact (hhex x.toNat x.toNat_lt).1 hhigh
  · exact (hhex x.toNat x.toNat_lt).2 (List.mem_singleton.mp hlow)

theorem paren_notMem_txInTail (horc : Texts orc) (vin : CTxIn) :
    ')' ∉ (txInTail orc vin).toList := by
  rw [txInTail, String.toList_append, List.mem_append, not_or]
  constructor
  · split
    · rw [String.toList_append, List.mem_append, not_or]
      exact ⟨by decide, paren_notMem_hexStr _⟩
    · rw [String.toList_append, List.mem_append, not_or]
      refine ⟨by decide, fun hmem => ?_⟩
      rw [String.toList_ofList] at hmem
      exact horc.script_paren _ (List.mem_of_mem_take hmem)
  · split
    · exact List.not_mem_nil
    · rw [String.toList_append, List.mem_append, not_or]
      exact ⟨by decide, paren_notMem_nat _⟩

theorem toList_txIn (vin : CTxIn) : (txInToString orc vin).toList =
    "CTxIn(COutPoint(".toList ++ (vin.prevout.hash.toHex.toList ++ (", ".toList ++
      ((toString vin.prevout.n.toNat).toList ++ ')' :: ((txInTail orc vin).toList ++ [')'])))) := by
  simp only [txInToString, outPointToString, String.toList_append, List.append_assoc]
  rfl

theorem outPoint_eq {o o' : COutPoint} (hhash : o.hash = o'.hash) (hn : o.n = o'.n) : o = o' := by
  cases o
  cases o'
  simp only at hhash hn
  rw [hhash, hn]

/-- The outpoint of an input can be read off the front of a text. -/
theorem txIn_append_inj (horc : Texts orc) {vin vin' : CTxIn} {xs ys : List Char}
    (h : (txInToString orc vin).toList ++ xs = (txInToString orc vin').toList ++ ys) :
    vin.prevout = vin'.prevout ∧ xs = ys := by
  rw [toList_txIn, toList_txIn] at h
  simp only [List.append_assoc, List.cons_append] at h
  obtain ⟨hhash, h⟩ := toHex_append_inj (List.append_cancel_left h)
  obtain ⟨hn, h⟩ := append_sep_inj (paren_notMem_nat _) (paren_notMem_nat _)
    (List.append_cancel_left h)
  obtain ⟨_, hrest⟩ := append_sep_inj (paren_notMem_txInTail horc vin)
    (paren_notMem_txInTail horc vin') h
  exact ⟨outPoint_eq hhash (BitVec.eq_of_toNat_eq (toString_nat_inj hn)), hrest⟩

theorem txIn_head {vin : CTxIn} {xs : List Char} :
    ((txInToString orc vin).toList ++ xs).head? = some 'C' := by
  rw [toList_txIn]
  rfl

end Inputs

end Scrypta.Masternodes
