import Scrypta.CStrings
import Scrypta.Primitives
import Scrypta.Toolkit.LittleEndian
import Scrypta.Toolkit.Positional

/-! Base58 texts and base58 texts with a checksum. A buffer is written with its last place first,
the order in which the loops of the source go through it. -/

namespace Scrypta.Base58

open Positional (feed digits read)

/-- How a call ends without a result: a failed assertion, or a count that leaves `int`. -/
inductive Fault
  | assertion
  | overflow
  deriving DecidableEq, Repr

def pszBase58 : List Char := "123456789ABCDEFGHJKLMNPQRSTUVWXYZabcdefghijkmnopqrstuvwxyz".toList

/-- The letter of a digit. -/
def letter (d : ℕ) : Char := pszBase58.getD d '\x00'

/-- The main loop of `DecodeBase58`: the buffer and the rest of the text, `none` at a character
that is not of the alphabet. -/
def decodeLoop : List ℕ → List Char → Except Fault (Option (List ℕ × List Char))
  | b256, [] => .ok (some (b256, []))
  | b256, c :: psz =>
    if isSpace c then .ok (some (b256, c :: psz))
    else match pszBase58.idxOf? c with
      | none => .ok none
      | some ch =>
        let next := Positional.mulAdd 256 58 ch b256
        if next.2 = 0 then decodeLoop next.1 psz else .error .assertion

/-- `DecodeBase58`, with what it leaves in `vch`. -/
def decodeBase58 (psz : CString) (vch : Bytes) : Except Fault (Bool × Bytes) :=
  let psz := psz.val.dropWhile isSpace
  let zeroes := (psz.takeWhile (· = '1')).length
  let psz := psz.dropWhile (· = '1')
  if 2 ^ 31 ≤ zeroes then .error .overflow
  else
    match decodeLoop (List.replicate (psz.length * 733 / 1000 + 1) 0) psz with
    | .error e => .error e
    | .ok none => .ok (false, vch)
    | .ok (some (b256, psz)) =>
      if psz.dropWhile isSpace ≠ [] then .ok (false, vch)
      else .ok (true, List.replicate zeroes 0 ++
        (b256.reverse.dropWhile (· = 0)).map UInt8.ofNat)

def encodeBase58 (vch : Bytes) : Except Fault (List Char) :=
  let zeroes := (vch.takeWhile (· = 0)).length
  let rest := vch.dropWhile (· = 0)
  if 2 ^ 31 ≤ zeroes then .error .overflow
  else
    match feed 58 256 (List.replicate (rest.length * 138 / 100 + 1) 0) (rest.map (·.toNat)) with
    | none => .error .assertion
    | some b58 => .ok (List.replicate zeroes '1' ++ (b58.reverse.dropWhile (· = 0)).map letter)

section Check

variable (hash : Bytes → Uint256)

/-- The first four bytes of the hash as it stands in memory. -/
def checksum (v : Bytes) : Bytes := (LittleEndian.encode 32 (hash v).toNat).take 4

def encodeBase58Check (vchIn : Bytes) : Except Fault (List Char) :=
  encodeBase58 (vchIn ++ checksum hash vchIn)

def decodeBase58Check (psz : CString) (vchRet : Bytes) : Except Fault (Bool × Bytes) :=
  match decodeBase58 psz vchRet with
  | .error e => .error e
  | .ok (fOk, vchRet) =>
    if !fOk || vchRet.length < 4 then .ok (false, [])
    else
      let payload := vchRet.take (vchRet.length - 4)
      if checksum hash payload ≠ vchRet.drop (vchRet.length - 4) then .ok (false, [])
      else .ok (true, payload)

end Check

section Letters

theorem pszBase58_eq : pszBase58 =
   ['1', '2', '3', '4', '5', '6', '7', '8', '9', 'A', 'B', 'C', 'D', 'E', 'F',
    'G', 'H', 'J', 'K', 'L', 'M', 'N', 'P', 'Q', 'R', 'S', 'T', 'U', 'V', 'W',
    'X', 'Y', 'Z', 'a', 'b', 'c', 'd', 'e', 'f', 'g', 'h', 'i', 'j', 'k', 'm',
    'n', 'o', 'p', 'q', 'r', 's', 't', 'u', 'v', 'w', 'x', 'y', 'z'] := by
  decide

theorem getElem_letter {d : ℕ} (hd : d < 58) :
    ∃ h : d < pszBase58.length, letter d = pszBase58[d] := by
  have hlen : d < pszBase58.length := by
    rw [pszBase58_eq]
    exact hd
  refine ⟨hlen, ?_⟩
  rw [letter, List.getD_eq_getElem?_getD, List.getElem?_eq_getElem hlen, Option.getD_some]

theorem letter_mem {d : ℕ} (hd : d < 58) : letter d ∈ pszBase58 := by
  obtain ⟨h, heq⟩ := getElem_letter hd
  rw [heq]
  exact List.getElem_mem h

/-- The letters stand in the order of their codes. -/
theorem nodup_pszBase58 : pszBase58.Nodup := by
  have hchain : pszBase58.IsChain (·.val < ·.val) := by
    rw [pszBase58_eq]
    decide
  have hsorted : pszBase58.Pairwise (·.val < ·.val) := List.isChain_iff_pairwise.mp hchain
  exact hsorted.imp fun hlt heq => absurd (congrArg Char.val heq) (UInt32.ne_of_lt hlt)

theorem idxOf?_letter {d : ℕ} (hd : d < 58) : pszBase58.idxOf? (letter d) = some d := by
  obtain ⟨h, heq⟩ := getElem_letter hd
  rw [List.idxOf?_eq_some_iff]
  refine ⟨h, heq.symm, fun j hj hsame => ?_⟩
  rw [heq] at hsame
  exact absurd ((nodup_pszBase58.getElem_inj_iff).mp hsame) (Nat.ne_of_lt hj)

theorem letter_of_idxOf? {c : Char} {d : ℕ} (h : pszBase58.idxOf? c = some d) :
    d < 58 ∧ letter d = c := by
  rw [List.idxOf?_eq_some_iff] at h
  obtain ⟨hd, hc, -⟩ := h
  have hlt : d < 58 := by
    rw [pszBase58_eq] at hd
    exact hd
  exact ⟨hlt, (getElem_letter hlt).2.trans hc⟩

theorem letter_not_space {d : ℕ} (hd : d < 58) : isSpace (letter d) = false := by
  have hall : (pszBase58.all fun c => !isSpace c) = true := by
    rw [pszBase58_eq]
    rfl
  have hletter := List.all_eq_true.mp hall _ (letter_mem hd)
  rwa [Bool.not_eq_true'] at hletter

theorem letter_ne_nul {d : ℕ} (hd : d < 58) : letter d ≠ '\x00' := by
  have hnone : '\x00' ∉ pszBase58 := by
    rw [pszBase58_eq]
    decide
  exact fun h => hnone (h ▸ letter_mem hd)

theorem letter_eq_one {d : ℕ} (hd : d < 58) : letter d = '1' ↔ d = 0 := by
  constructor
  · intro h
    have hidx := idxOf?_letter hd
    rw [h, pszBase58_eq] at hidx
    exact (Option.some.inj hidx).symm
  · intro h
    rw [h, letter, pszBase58_eq]
    rfl

end Letters

section Numerals

/-- The bytes of a number after `z` zero bytes. -/
def bytesOf (z n : ℕ) : Bytes := List.replicate z 0 ++ (digits 256 n).map UInt8.ofNat

/-- The text of a number after the letters of `z` zero bytes. -/
def textOf (z n : ℕ) : List Char := List.replicate z '1' ++ (digits 58 n).map letter

theorem head_bytes (n : ℕ) : ∀ x ∈ ((digits 256 n).map UInt8.ofNat).head?, x ≠ 0 := by
  intro x hx
  rw [List.head?_map, Option.mem_map] at hx
  obtain ⟨d, hd, rfl⟩ := hx
  intro h0
  have hlt := Positional.digits_lt (by decide) (List.mem_of_mem_head? hd)
  have hzero : d % 256 = 0 := congrArg UInt8.toNat h0
  rw [Nat.mod_eq_of_lt hlt] at hzero
  exact Positional.head_digits hd hzero

theorem head_letters {xs : List ℕ} (hxs : ∀ x ∈ xs, x < 58) (hhead : ∀ x ∈ xs.head?, x ≠ 0) :
    ∀ c ∈ (xs.map letter).head?, c ≠ '1' := by
  intro c hc
  rw [List.head?_map, Option.mem_map] at hc
  obtain ⟨d, hd, rfl⟩ := hc
  exact fun h1 => hhead d hd ((letter_eq_one (hxs d (List.mem_of_mem_head? hd))).mp h1)

theorem map_toNat_bytes (n : ℕ) :
    ((digits 256 n).map UInt8.ofNat).map (·.toNat) = digits 256 n := by
  rw [List.map_map]
  refine (List.map_congr_left fun d hd => ?_).trans (List.map_id _)
  exact Nat.mod_eq_of_lt (Positional.digits_lt (by decide) hd)

theorem takeWhile_eq_replicate {α : Type*} [DecidableEq α] (a : α) (xs : List α) :
    xs.takeWhile (· = a) = List.replicate (xs.takeWhile (· = a)).length a :=
  List.eq_replicate_iff.mpr ⟨rfl, fun x hx => by simpa using List.mem_takeWhile_imp hx⟩

theorem head_dropWhile {α : Type*} [DecidableEq α] (a : α) (xs : List α) :
    ∀ x ∈ (xs.dropWhile (· = a)).head?, x ≠ a := by
  intro x hx
  have hhead := List.head?_dropWhile_not (fun y => decide (y = a)) xs
  rw [Option.mem_def.mp hx] at hhead
  simpa using hhead

/-- The number of zero bytes at the front. -/
def leadingZeros (v : Bytes) : ℕ := (v.takeWhile (· = 0)).length

theorem bytesOf_leadingZeros (v : Bytes) :
    bytesOf (leadingZeros v) (read 256 ((v.dropWhile (· = 0)).map (·.toNat))) = v := by
  have hdigits : digits 256 (read 256 ((v.dropWhile (· = 0)).map (·.toNat))) =
      (v.dropWhile (· = 0)).map (·.toNat) := by
    refine Positional.digits_read (by decide) (fun x hx => ?_) fun x hx => ?_
    · obtain ⟨y, -, rfl⟩ := List.mem_map.mp hx
      exact y.toNat_lt
    · rw [List.head?_map, Option.mem_map] at hx
      obtain ⟨y, hy, rfl⟩ := hx
      exact fun h0 => head_dropWhile 0 v y hy (UInt8.toNat_inj.mp h0)
  have hback : ((v.dropWhile (· = 0)).map (·.toNat)).map UInt8.ofNat = v.dropWhile (· = 0) := by
    rw [List.map_map]
    exact (List.map_congr_left fun y _ => UInt8.ofNat_toNat).trans (List.map_id _)
  rw [bytesOf, hdigits, hback, leadingZeros, ← takeWhile_eq_replicate,
    List.takeWhile_append_dropWhile]

theorem leadingZeros_bytesOf (z n : ℕ) : leadingZeros (bytesOf z n) = z := by
  rw [leadingZeros, bytesOf, (Positional.takeWhile_replicate_append z (head_bytes n)).1,
    List.length_replicate]

end Numerals

section Encoding

/-- The buffer of `EncodeBase58` is large enough for any number of bytes. -/
theorem pow_le_encode (n : ℕ) : 256 ^ n ≤ 58 ^ (n * 138 / 100 + 1) :=
  Positional.pow_le_pow_of_ratio (p := 8) (q := 11) (by decide) (by decide) (by decide) (by omega)

/-- The buffer of `DecodeBase58` is large enough for any number of letters. -/
theorem pow_le_decode {n k : ℕ} (h : n ≤ k) : 58 ^ n ≤ 256 ^ (k * 733 / 1000 + 1) :=
  Positional.pow_le_pow_of_ratio (p := 71) (q := 52) (by decide) (by decide) (by decide) (by omega)

theorem encodeBase58_bytesOf {z : ℕ} (n : ℕ) (hz : z < 2 ^ 31) :
    encodeBase58 (bytesOf z n) = .ok (textOf z n) := by
  obtain ⟨htake, hdrop⟩ := Positional.takeWhile_replicate_append (a := (0 : UInt8)) z (head_bytes n)
  obtain ⟨ds, hfeed, hds⟩ := Positional.feed_zeros (b := 58) (m := 256) (by decide) (by decide)
    (fun x hx => Positional.digits_lt (by decide) hx) (pow_le_encode (digits 256 n).length)
  rw [Positional.read_digits] at hds
  simp only [encodeBase58, bytesOf, htake, hdrop, List.length_replicate, List.length_map,
    map_toNat_bytes, hfeed, hds, if_neg (Nat.not_le.mpr hz)]
  rfl

theorem encodeBase58_eq {v : Bytes} (h : leadingZeros v < 2 ^ 31) :
    encodeBase58 v =
      .ok (textOf (leadingZeros v) (read 256 ((v.dropWhile (· = 0)).map (·.toNat)))) := by
  conv_lhs => rw [← bytesOf_leadingZeros v]
  exact encodeBase58_bytesOf _ h

theorem encodeBase58_overflow {v : Bytes} (h : 2 ^ 31 ≤ leadingZeros v) :
    encodeBase58 v = .error .overflow := by
  unfold leadingZeros at h
  rw [encodeBase58, if_pos h]

end Encoding

section Decoding

theorem decodeLoop_letters {ds ds' xs : List ℕ} (rest : List Char) (hxs : ∀ x ∈ xs, x < 58)
    (h : feed 256 58 ds xs = some ds') :
    decodeLoop ds (xs.map letter ++ rest) = decodeLoop ds' rest := by
  induction xs generalizing ds with
  | nil =>
    obtain rfl := Option.some.inj h
    rfl
  | cons x xs ih =>
    have hx := hxs x List.mem_cons_self
    simp only [feed] at h
    split_ifs at h with hcarry
    rw [List.map_cons, List.cons_append, decodeLoop, letter_not_space hx, if_neg Bool.false_ne_true,
      idxOf?_letter hx]
    simp only [if_pos hcarry]
    exact ih (fun y hy => hxs y (List.mem_cons_of_mem _ hy)) h

/-- Where the main loop stops. -/
def Stops (rest : List Char) : Prop :=
  ∀ c ∈ rest.head?, isSpace c = true ∨ isSpace c = false ∧ pszBase58.idxOf? c = none

theorem decodeLoop_stops (ds : List ℕ) {rest : List Char} (h : Stops rest) :
    decodeLoop ds rest = .ok (some (ds, rest)) ∨
      decodeLoop ds rest = .ok none ∧ rest.all isSpace = false := by
  cases rest with
  | nil => exact .inl rfl
  | cons c rest =>
    rcases h c rfl with hc | ⟨hc, hidx⟩
    · exact .inl (by rw [decodeLoop, if_pos hc])
    · refine .inr ⟨?_, by simp [hc]⟩
      rw [decodeLoop, hc, if_neg Bool.false_ne_true, hidx]

/-- Letters of the alphabet as far as they go. -/
theorem exists_letters (p : List Char) :
    ∃ xs rest, p = List.map letter xs ++ rest ∧ (∀ x ∈ xs, x < 58) ∧ Stops rest := by
  induction p with
  | nil => exact ⟨[], [], rfl, by simp, by simp [Stops]⟩
  | cons c p ih =>
    cases hspace : isSpace c with
    | true => exact ⟨[], c :: p, rfl, by simp, fun d hd => .inl (Option.some.inj hd ▸ hspace)⟩
    | false =>
      cases hidx : pszBase58.idxOf? c with
      | none =>
        exact ⟨[], c :: p, rfl, by simp, fun d hd => .inr (Option.some.inj hd ▸ ⟨hspace, hidx⟩)⟩
      | some x =>
        obtain ⟨xs, rest, rfl, hxs, hstop⟩ := ih
        obtain ⟨hx, hletter⟩ := letter_of_idxOf? hidx
        refine ⟨x :: xs, rest, ?_, List.forall_mem_cons.mpr ⟨hx, hxs⟩, hstop⟩
        rw [List.map_cons, hletter, List.cons_append]

theorem head_append_stops {xs : List ℕ} {rest : List Char} (hxs : ∀ x ∈ xs, x < 58)
    (hhead : ∀ x ∈ xs.head?, x ≠ 0) (hstop : Stops rest) :
    ∀ c ∈ (xs.map letter ++ rest).head?, c ≠ '1' := by
  cases xs with
  | cons x xs =>
    intro c hc
    exact head_letters hxs hhead c hc
  | nil =>
    intro c hc h1
    subst h1
    rcases hstop _ hc with hspace | ⟨-, hidx⟩
    · exact absurd hspace (by decide)
    · rw [pszBase58_eq] at hidx
      exact absurd hidx (by decide)

/-- `DecodeBase58` on a text in which the letters and where they end are known. -/
theorem decodeBase58_split {s : CString} {z : ℕ} {xs : List ℕ} {rest : List Char} (vch : Bytes)
    (hs : s.val.dropWhile isSpace = List.replicate z '1' ++ (xs.map letter ++ rest))
    (hxs : ∀ x ∈ xs, x < 58) (hhead : ∀ x ∈ xs.head?, x ≠ 0) (hstop : Stops rest) :
    decodeBase58 s vch =
      if 2 ^ 31 ≤ z then .error .overflow
      else if rest.all isSpace then .ok (true, bytesOf z (read 58 xs))
      else .ok (false, vch) := by
  obtain ⟨htake, hdrop⟩ :=
    Positional.takeWhile_replicate_append z (head_append_stops hxs hhead hstop)
  have hsize : xs.length ≤ (xs.map letter ++ rest).length := by
    rw [List.length_append, List.length_map]
    exact Nat.le_add_right _ _
  obtain ⟨ds, hfeed, hds⟩ :=
    Positional.feed_zeros (by decide) (by decide) hxs (pow_le_decode hsize)
  simp only [decodeBase58, hs, htake, hdrop, List.length_replicate,
    decodeLoop_letters rest hxs hfeed]
  split_ifs with _ hall
  · rfl
  · have hskip : rest.dropWhile isSpace = [] :=
      List.dropWhile_eq_nil_iff.mpr (List.all_eq_true.mp hall)
    rcases decodeLoop_stops ds hstop with hloop | ⟨-, hnot⟩
    · simp only [hloop, hskip, hds, ne_eq, not_true_eq_false, if_false]
      rfl
    · exact absurd hall (Bool.eq_false_iff.mp hnot)
  · have hskip : rest.dropWhile isSpace ≠ [] := fun h =>
      hall (List.all_eq_true.mpr (List.dropWhile_eq_nil_iff.mp h))
    rcases decodeLoop_stops ds hstop with hloop | ⟨hloop, -⟩
    · simp only [hloop, if_pos hskip]
    · simp only [hloop]

/-- Every text splits into white space, ones, other letters and what follows them. -/
theorem exists_split (s : CString) :
    ∃ z xs rest, s.val.dropWhile isSpace = List.replicate z '1' ++ (List.map letter xs ++ rest) ∧
      (∀ x ∈ xs, x < 58) ∧ (∀ x ∈ xs.head?, x ≠ 0) ∧ Stops rest := by
  obtain ⟨xs, rest, hsplit, hxs, hstop⟩ :=
    exists_letters ((s.val.dropWhile isSpace).dropWhile (· = '1'))
  refine ⟨((s.val.dropWhile isSpace).takeWhile (· = '1')).length, xs, rest, ?_, hxs, ?_, hstop⟩
  · rw [← takeWhile_eq_replicate, ← hsplit, List.takeWhile_append_dropWhile]
  · intro x hx h0
    have hone : letter x ∈ (xs.map letter ++ rest).head? := by
      rw [List.head?_append, List.head?_map, Option.mem_def.mp hx]
      rfl
    rw [← hsplit] at hone
    exact head_dropWhile '1' _ _ hone ((letter_eq_one (hxs x (List.mem_of_mem_head? hx))).mpr h0)

end Decoding

section Inverse

theorem mem_textOf {z n : ℕ} {c : Char} (hc : c ∈ textOf z n) : ∃ d < 58, c = letter d := by
  rw [textOf, List.mem_append] at hc
  rcases hc with hc | hc
  · exact ⟨0, by decide, List.eq_of_mem_replicate hc⟩
  · obtain ⟨d, hd, rfl⟩ := List.mem_map.mp hc
    exact ⟨d, Positional.digits_lt (by decide) hd, rfl⟩

theorem textOf_not_space {z n : ℕ} : ∀ c ∈ textOf z n, isSpace c = false := by
  intro c hc
  obtain ⟨d, hd, rfl⟩ := mem_textOf hc
  exact letter_not_space hd

theorem nul_notMem_textOf (z n : ℕ) : '\x00' ∉ textOf z n := by
  intro hc
  obtain ⟨d, hd, hletter⟩ := mem_textOf hc
  exact letter_ne_nul hd hletter.symm

theorem decodeBase58_textOf {z : ℕ} (n : ℕ) (hz : z < 2 ^ 31) (vch : Bytes) :
    decodeBase58 (cStr (textOf z n)) vch = .ok (true, bytesOf z n) := by
  have hsplit : (cStr (textOf z n)).val.dropWhile isSpace =
      List.replicate z '1' ++ ((digits 58 n).map letter ++ []) := by
    rw [cStr_val_eq_self (nul_notMem_textOf z n), List.append_nil]
    exact dropWhile_space (fun c hc => absurd hc List.not_mem_nil)
      fun c hc => textOf_not_space c (List.mem_of_mem_head? hc)
  rw [decodeBase58_split vch hsplit (fun x hx => Positional.digits_lt (by decide) hx)
    (fun x hx => Positional.head_digits hx) (by simp [Stops]), if_neg (Nat.not_le.mpr hz),
    if_pos List.all_nil, Positional.read_digits]

/-- What `DecodeBase58` accepts is white space around the text of what it returns. -/
theorem decodeBase58_accepted {s : CString} {vch v : Bytes}
    (h : decodeBase58 s vch = .ok (true, v)) :
    ∃ z n, z < 2 ^ 31 ∧ v = bytesOf z n ∧ trim s.val = textOf z n := by
  obtain ⟨z, xs, rest, hs, hxs, hhead, hstop⟩ := exists_split s
  rw [decodeBase58_split vch hs hxs hhead hstop] at h
  split_ifs at h with hz hall
  · refine ⟨z, read 58 xs, Nat.lt_of_not_le hz, (Prod.mk.inj (Except.ok.inj h)).2.symm, ?_⟩
    have htext : textOf z (read 58 xs) = List.replicate z '1' ++ xs.map letter := by
      rw [textOf, Positional.digits_read (by decide) hxs hhead]
    rw [← List.append_assoc, ← htext] at hs
    rw [← List.takeWhile_append_dropWhile (p := isSpace) (l := s.val), hs]
    exact trim_eq (fun c hc => List.mem_takeWhile_imp hc) textOf_not_space
      (List.all_eq_true.mp hall)
  · cases (Prod.mk.inj (Except.ok.inj h)).1

theorem encodeBase58_ne_assertion (v : Bytes) : encodeBase58 v ≠ .error .assertion := by
  intro h
  by_cases hz : leadingZeros v < 2 ^ 31
  · rw [encodeBase58_eq hz] at h
    cases h
  · rw [encodeBase58_overflow (Nat.le_of_not_lt hz)] at h
    cases h

theorem decodeBase58_ne_assertion (s : CString) (vch : Bytes) :
    decodeBase58 s vch ≠ .error .assertion := by
  obtain ⟨z, xs, rest, hs, hxs, hhead, hstop⟩ := exists_split s
  intro h
  rw [decodeBase58_split vch hs hxs hhead hstop] at h
  split_ifs at h
  all_goals cases h

theorem length_checksum (hash : Bytes → Uint256) (v : Bytes) : (checksum hash v).length = 4 := by
  rw [checksum, List.length_take, LittleEndian.length_encode]
  rfl

theorem decodeBase58Check_accepts {hash : Bytes → Uint256} {s : CString} {vch p : Bytes} :
    decodeBase58Check hash s vch = .ok (true, p) ↔
      decodeBase58 s vch = .ok (true, p ++ checksum hash p) := by
  unfold decodeBase58Check
  constructor
  · intro h
    split at h
    · cases h
    · rename_i fOk v hdecode
      dsimp only at h
      split_ifs at h with hguard hsum
      · cases (Prod.mk.inj (Except.ok.inj h)).1
      · cases (Prod.mk.inj (Except.ok.inj h)).1
      · have hp := (Prod.mk.inj (Except.ok.inj h)).2
        have hok : fOk = true := by
          cases fOk
          · exact absurd rfl hguard
          · rfl
        rw [hdecode, hok, ← hp, Decidable.of_not_not hsum, List.take_append_drop]
  · intro h
    have hlen := length_checksum hash p
    simp only [h, List.length_append, hlen, Nat.add_sub_cancel, List.take_left, List.drop_left,
      ne_eq, not_true_eq_false, if_false, Bool.not_true, Bool.false_or,
      if_neg (show ¬decide (p.length + 4 < 4) = true by simp)]

/-- Encoding and decoding are inverse, the buffers are large enough for every input, and the texts
with a checksum are those whose payload the checksum belongs to. An `int` counts the zero bytes. -/
theorem base58_inverse :
    (∀ v, leadingZeros v < 2 ^ 31 →
      ∃ s, encodeBase58 v = .ok s ∧ ∀ vch, decodeBase58 (cStr s) vch = .ok (true, v)) ∧
    (∀ s vch v, decodeBase58 s vch = .ok (true, v) → encodeBase58 v = .ok (trim s.val)) ∧
    (∀ v, encodeBase58 v ≠ .error .assertion) ∧
    (∀ s vch, decodeBase58 s vch ≠ .error .assertion) ∧
    ∀ hash s vch p, decodeBase58Check hash s vch = .ok (true, p) ↔
      decodeBase58 s vch = .ok (true, p ++ checksum hash p) := by
  refine ⟨fun v hz => ⟨_, encodeBase58_eq hz, fun vch => ?_⟩, fun s vch v h => ?_,
    encodeBase58_ne_assertion, decodeBase58_ne_assertion,
    fun hash s vch p => decodeBase58Check_accepts⟩
  · rw [decodeBase58_textOf _ hz, bytesOf_leadingZeros]
  · obtain ⟨z, n, hz, rfl, htrim⟩ := decodeBase58_accepted h
    rw [htrim, encodeBase58_bytesOf n hz]

theorem base58_inverse_two :
    (∃ s, encodeBase58 [0, 97] = .ok s ∧
      ∀ vch, decodeBase58 (cStr s) vch = .ok (true, [0, 97])) ∧
    encodeBase58 [0, 97] = .ok (trim (cStr " 12g\n".toList).val) :=
  ⟨base58_inverse.1 [0, 97] (by decide), base58_inverse.2.1 (cStr " 12g\n".toList) [] _ (by decide)⟩

/-- The count of the zero bytes leaves `int`. -/
theorem zeroes_overflow :
    ¬∀ v, ∃ s, encodeBase58 v = .ok s ∧ ∀ vch, decodeBase58 (cStr s) vch = .ok (true, v) := by
  intro h
  obtain ⟨s, hs, -⟩ := h (List.replicate (2 ^ 31) 0)
  have hzeros : leadingZeros (List.replicate (2 ^ 31) 0) = 2 ^ 31 := by
    have hbytes := leadingZeros_bytesOf (2 ^ 31) 0
    rwa [bytesOf, Positional.digits, Nat.digits_zero, List.reverse_nil, List.map_nil,
      List.append_nil] at hbytes
  rw [encodeBase58_overflow hzeros.ge] at hs
  cases hs

end Inverse

end Scrypta.Base58
