import Scrypta.Primitives
import Scrypta.Toolkit.Repack

/-! Base64 and Base32 texts. An index outside of a table or of a text has no result. -/

namespace Scrypta.Base64

open Repack (Repacked)

def pbase64 : Bytes :=
  "ABCDEFGHIJKLMNOPQRSTUVWXYZabcdefghijklmnopqrstuvwxyz0123456789+/".toList.map
    fun c => UInt8.ofNat c.toNat

def pbase32 : Bytes := "abcdefghijklmnopqrstuvwxyz234567".toList.map fun c => UInt8.ofNat c.toNat

def decode64Table : List ℤ := [
    -1, -1, -1, -1, -1, -1, -1, -1, -1, -1, -1, -1, -1, -1, -1, -1, -1, -1, -1, -1,
    -1, -1, -1, -1, -1, -1, -1, -1, -1, -1, -1, -1, -1, -1, -1, -1, -1, -1, -1, -1,
    -1, -1, -1, 62, -1, -1, -1, 63, 52, 53, 54, 55, 56, 57, 58, 59, 60, 61, -1, -1,
    -1, -1, -1, -1, -1, 0, 1, 2, 3, 4, 5, 6, 7, 8, 9, 10, 11, 12, 13, 14,
    15, 16, 17, 18, 19, 20, 21, 22, 23, 24, 25, -1, -1, -1, -1, -1, -1, 26, 27, 28,
    29, 30, 31, 32, 33, 34, 35, 36, 37, 38, 39, 40, 41, 42, 43, 44, 45, 46, 47, 48,
    49, 50, 51, -1, -1, -1, -1, -1, -1, -1, -1, -1, -1, -1, -1, -1, -1, -1, -1, -1,
    -1, -1, -1, -1, -1, -1, -1, -1, -1, -1, -1, -1, -1, -1, -1, -1, -1, -1, -1, -1,
    -1, -1, -1, -1, -1, -1, -1, -1, -1, -1, -1, -1, -1, -1, -1, -1, -1, -1, -1, -1,
    -1, -1, -1, -1, -1, -1, -1, -1, -1, -1, -1, -1, -1, -1, -1, -1, -1, -1, -1, -1,
    -1, -1, -1, -1, -1, -1, -1, -1, -1, -1, -1, -1, -1, -1, -1, -1, -1, -1, -1, -1,
    -1, -1, -1, -1, -1, -1, -1, -1, -1, -1, -1, -1, -1, -1, -1, -1, -1, -1, -1, -1,
    -1, -1, -1, -1, -1, -1, -1, -1, -1, -1, -1, -1, -1, -1, -1, -1]

def decode32Table : List ℤ := [
    -1, -1, -1, -1, -1, -1, -1, -1, -1, -1, -1, -1, -1, -1, -1, -1, -1, -1, -1, -1,
    -1, -1, -1, -1, -1, -1, -1, -1, -1, -1, -1, -1, -1, -1, -1, -1, -1, -1, -1, -1,
    -1, -1, -1, -1, -1, -1, -1, -1, -1, -1, 26, 27, 28, 29, 30, 31, -1, -1, -1, -1,
    -1, -1, -1, -1, -1, 0, 1, 2, 3, 4, 5, 6, 7, 8, 9, 10, 11, 12, 13, 14,
    15, 16, 17, 18, 19, 20, 21, 22, 23, 24, 25, -1, -1, -1, -1, -1, -1, 0, 1, 2,
    3, 4, 5, 6, 7, 8, 9, 10, 11, 12, 13, 14, 15, 16, 17, 18, 19, 20, 21, 22,
    23, 24, 25, -1, -1, -1, -1, -1, -1, -1, -1, -1, -1, -1, -1, -1, -1, -1, -1, -1,
    -1, -1, -1, -1, -1, -1, -1, -1, -1, -1, -1, -1, -1, -1, -1, -1, -1, -1, -1, -1,
    -1, -1, -1, -1, -1, -1, -1, -1, -1, -1, -1, -1, -1, -1, -1, -1, -1, -1, -1, -1,
    -1, -1, -1, -1, -1, -1, -1, -1, -1, -1, -1, -1, -1, -1, -1, -1, -1, -1, -1, -1,
    -1, -1, -1, -1, -1, -1, -1, -1, -1, -1, -1, -1, -1, -1, -1, -1, -1, -1, -1, -1,
    -1, -1, -1, -1, -1, -1, -1, -1, -1, -1, -1, -1, -1, -1, -1, -1, -1, -1, -1, -1,
    -1, -1, -1, -1, -1, -1, -1, -1, -1, -1, -1, -1, -1, -1, -1, -1]

/-- The padding character. -/
def equals : UInt8 := 61

/-- The cases of the switch in `EncodeBase64`: what is written, `left` and `mode`. -/
def encodeStep64 (mode left enc : ℕ) : List ℕ × ℕ × ℕ :=
  match mode with
  | 0 => ([enc >>> 2], (enc &&& 3) <<< 4, 1)
  | 1 => ([left ||| (enc >>> 4)], (enc &&& 15) <<< 2, 2)
  | 2 => ([left ||| (enc >>> 6), enc &&& 63], left, 0)
  | mode => ([], left, mode)

/-- The cases of the switch in `EncodeBase32`. -/
def encodeStep32 (mode left enc : ℕ) : List ℕ × ℕ × ℕ :=
  match mode with
  | 0 => ([enc >>> 3], (enc &&& 7) <<< 2, 1)
  | 1 => ([left ||| (enc >>> 6), (enc >>> 1) &&& 31], (enc &&& 1) <<< 4, 2)
  | 2 => ([left ||| (enc >>> 4)], (enc &&& 15) <<< 1, 3)
  | 3 => ([left ||| (enc >>> 7), (enc >>> 2) &&& 31], (enc &&& 3) <<< 3, 4)
  | 4 => ([left ||| (enc >>> 5), enc &&& 31], left, 0)
  | mode => ([], left, mode)

/-- The loop of an encoder over the bytes. -/
def encodeLoop (pbase : Bytes) (step : ℕ → ℕ → ℕ → List ℕ × ℕ × ℕ) (mode left : ℕ)
    (strRet : Bytes) : Bytes → Option (ℕ × ℕ × Bytes)
  | [] => some (mode, left, strRet)
  | enc :: pch =>
    let out := step mode left enc.toNat
    match out.1.mapM fun i => pbase[i]? with
    | none => none
    | some letters => encodeLoop pbase step out.2.2 out.2.1 (strRet ++ letters) pch

def encodeBase64 (pch : Bytes) : Option Bytes :=
  match encodeLoop pbase64 encodeStep64 0 0 [] pch with
  | none => none
  | some (mode, left, strRet) =>
    if mode ≠ 0 then
      match pbase64[left]? with
      | none => none
      | some c => some (strRet ++ c :: equals :: if mode = 1 then [equals] else [])
    else some strRet

def nPadding : List ℕ := [0, 6, 4, 3, 1]

def encodeBase32 (pch : Bytes) : Option Bytes :=
  match encodeLoop pbase32 encodeStep32 0 0 [] pch with
  | none => none
  | some (mode, left, strRet) =>
    if mode ≠ 0 then
      match pbase32[left]?, nPadding[mode]? with
      | some c, some n => some (strRet ++ c :: List.replicate n equals)
      | _, _ => none
    else some strRet

/-- The cases of the switch in `DecodeBase64`: what is pushed back, `left` and `mode`. -/
def decodeStep64 (mode left dec : ℕ) : List ℕ × ℕ × ℕ :=
  match mode with
  | 0 => ([], dec, 1)
  | 1 => ([(left <<< 2) ||| (dec >>> 4)], dec &&& 15, 2)
  | 2 => ([(left <<< 4) ||| (dec >>> 2)], dec &&& 3, 3)
  | 3 => ([(left <<< 6) ||| dec], left, 0)
  | mode => ([], left, mode)

/-- The cases of the switch in `DecodeBase32`. -/
def decodeStep32 (mode left dec : ℕ) : List ℕ × ℕ × ℕ :=
  match mode with
  | 0 => ([], dec, 1)
  | 1 => ([(left <<< 3) ||| (dec >>> 2)], dec &&& 3, 2)
  | 2 => ([], (left <<< 5) ||| dec, 3)
  | 3 => ([(left <<< 1) ||| (dec >>> 4)], dec &&& 15, 4)
  | 4 => ([(left <<< 4) ||| (dec >>> 1)], dec &&& 1, 5)
  | 5 => ([], (left <<< 5) ||| dec, 6)
  | 6 => ([(left <<< 2) ||| (dec >>> 3)], dec &&& 7, 7)
  | 7 => ([(left <<< 5) ||| dec], left, 0)
  | mode => ([], left, mode)

/-- The character at `p[k]`, where the text ends with a NUL. -/
def charAt (p : Bytes) (k : ℕ) : Option UInt8 := (p ++ [0])[k]?

/-- The loop of a decoder up to the first character that is not of the alphabet. -/
def decodeLoop (table : List ℤ) (step : ℕ → ℕ → ℕ → List ℕ × ℕ × ℕ) (mode left : ℕ)
    (vchRet : Bytes) : Bytes → Option (ℕ × ℕ × Bytes × Bytes)
  | [] =>
    match table[0]? with
    | some (-1) => some (mode, left, vchRet, [])
    | _ => none
  | c :: p =>
    match table[c.toNat]? with
    | none => none
    | some dec =>
      if dec = -1 then some (mode, left, vchRet, c :: p)
      else
        let out := step mode left dec.toNat
        decodeLoop table step out.2.2 out.2.1 (vchRet ++ out.1.map UInt8.ofNat) p

/-- Whether the text from `p[k]` on is not `n` times the padding character and then something that
is not of the alphabet. -/
def unpadded (table : List ℤ) (p : Bytes) (k : ℕ) : ℕ → Option Bool
  | 0 =>
    match charAt p k with
    | none => none
    | some c => table[c.toNat]?.map (· ≠ -1)
  | n + 1 =>
    match charAt p k with
    | none => none
    | some c => if c ≠ equals then some true else unpadded table p (k + 1) n

/-- The check of the bits that are left, and of the padding where there are none. -/
def padInvalid (table : List ℤ) (left : ℕ) (p : Bytes) (n : ℕ) : Option Bool :=
  if left ≠ 0 then some true else unpadded table p 0 n

/-- `DecodeBase64` with what it leaves in `*pfInvalid`. -/
def decodeBase64 (p : Bytes) : Option (Bytes × Bool) :=
  match decodeLoop decode64Table decodeStep64 0 0 [] p with
  | none => none
  | some (mode, left, vchRet, p) =>
    let invalid :=
      match mode with
      | 1 => some true
      | 2 => padInvalid decode64Table left p 2
      | 3 => padInvalid decode64Table left p 1
      | _ => some false
    invalid.map fun fInvalid => (vchRet, fInvalid)

/-- `DecodeBase32` with what it leaves in `*pfInvalid`. -/
def decodeBase32 (p : Bytes) : Option (Bytes × Bool) :=
  match decodeLoop decode32Table decodeStep32 0 0 [] p with
  | none => none
  | some (mode, left, vchRet, p) =>
    let invalid :=
      match mode with
      | 1 => some true
      | 3 => some true
      | 6 => some true
      | 2 => padInvalid decode32Table left p 6
      | 4 => padInvalid decode32Table left p 4
      | 5 => padInvalid decode32Table left p 3
      | 7 => padInvalid decode32Table left p 1
      | _ => some false
    invalid.map fun fInvalid => (vchRet, fInvalid)

/-- The letter of a digit. -/
def letter (pbase : Bytes) (d : ℕ) : UInt8 := pbase.getD d 0

/-- A text that does not begin with a character of the alphabet. -/
def Outside (table : List ℤ) (p : Bytes) : Prop := ∀ c ∈ p.head?, table[c.toNat]? = some (-1)

/-- The padding, and then nothing of the alphabet. -/
def Padded (table : List ℤ) (p : Bytes) (n : ℕ) : Prop :=
  ∃ rest, p = List.replicate n equals ++ rest ∧ Outside table rest

/-- The table of a decoder is the inverse of the letters of its encoder, where `fold` takes the
characters for one digit to its letter. -/
structure Tables (w : ℕ) (pbase : Bytes) (table : List ℤ) (fold : UInt8 → UInt8) : Prop where
  length_pbase : pbase.length = 2 ^ w
  decoded : ∀ c : UInt8, table[c.toNat]? = some (-1) ∨
    ∃ d : ℕ, d < 2 ^ w ∧ table[c.toNat]? = some (d : ℤ) ∧ letter pbase d = fold c
  encoded : ∀ d : ℕ, d < 2 ^ w → table[(letter pbase d).toNat]? = some (d : ℤ)
  table_fold : ∀ c : UInt8, table[(fold c).toNat]? = table[c.toNat]?
  fold_equals : ∀ c, fold c = equals ↔ c = equals
  equals_outside : table[equals.toNat]? = some (-1)
  nul_outside : table[0]? = some (-1)

section Encoders

/-- The bits that an encoder keeps back in `mode` stand at the high end of `left`. -/
def EncodeInv (w : ℕ) (kept : ℕ → ℕ) (xs ys : List ℕ) (mode left : ℕ) : Prop :=
  ∃ acc, Repacked 8 w xs ys (kept mode) acc ∧ (mode ≠ 0 → left = acc <<< (w - kept mode))

/-- The cases of a switch write out what the bytes so far fill. -/
structure EncodeSwitch (w modes : ℕ) (kept : ℕ → ℕ) (step : ℕ → ℕ → ℕ → List ℕ × ℕ × ℕ) :
    Prop where
  kept_zero : kept 0 = 0
  kept_pos : ∀ mode < modes, mode ≠ 0 → 0 < kept mode
  kept_lt : ∀ mode < modes, kept mode < w
  keeps : ∀ {mode left enc xs ys}, mode < modes → EncodeInv w kept xs ys mode left → enc < 2 ^ 8 →
    (step mode left enc).2.2 < modes ∧ EncodeInv w kept (xs ++ [enc])
      (ys ++ (step mode left enc).1) (step mode left enc).2.2 (step mode left enc).2.1

variable {w modes : ℕ} {kept : ℕ → ℕ} {step : ℕ → ℕ → ℕ → List ℕ × ℕ × ℕ} {pbase : Bytes}

theorem getElem?_letter {i : ℕ} (hi : i < pbase.length) : pbase[i]? = some (letter pbase i) := by
  rw [letter, List.getD_eq_getElem?_getD, List.getElem?_eq_getElem hi, Option.getD_some]

theorem mapM_letter {is : List ℕ} (h : ∀ i ∈ is, i < pbase.length) :
    (is.mapM fun i => pbase[i]?) = some (is.map (letter pbase)) := by
  induction is with
  | nil => rfl
  | cons i is ih =>
    rw [List.mapM_cons, getElem?_letter (h i List.mem_cons_self),
      ih fun j hj => h j (List.mem_cons_of_mem _ hj)]
    rfl

theorem encodeLoop_spec (hswitch : EncodeSwitch w modes kept step)
    (hlen : pbase.length = 2 ^ w) {mode left : ℕ} {xs ys : List ℕ} (pch : Bytes)
    (hmode : mode < modes) (hinv : EncodeInv w kept xs ys mode left) :
    ∃ mode' left' ys', encodeLoop pbase step mode left (ys.map (letter pbase)) pch =
        some (mode', left', ys'.map (letter pbase)) ∧
      mode' < modes ∧ EncodeInv w kept (xs ++ pch.map (·.toNat)) ys' mode' left' := by
  induction pch generalizing mode left xs ys with
  | nil => exact ⟨mode, left, ys, rfl, hmode, by rwa [List.map_nil, List.append_nil]⟩
  | cons enc pch ih =>
    obtain ⟨hmode', hinv'⟩ := hswitch.keeps hmode hinv enc.toNat_lt
    have hrange : ∀ i ∈ (step mode left enc.toNat).1, i < pbase.length := by
      obtain ⟨acc, hpack, -⟩ := hinv'
      rw [hlen]
      exact fun i hi => hpack.right_lt i (List.mem_append_right _ hi)
    obtain ⟨mode', left', ys', hloop, hlt, hfinal⟩ := ih hmode' hinv'
    refine ⟨mode', left', ys', ?_, hlt, ?_⟩
    · simp only [encodeLoop, mapM_letter hrange]
      rw [← List.map_append]
      exact hloop
    · rwa [List.append_assoc, List.singleton_append] at hfinal

/-- The letters of the digits that the bytes fill with zeros at their end. -/
def Encodes (w : ℕ) (pbase : Bytes) (pad : ℕ → ℕ) (v e : Bytes) : Prop :=
  ∃ ds p, Repacked w 8 ds (v.map (·.toNat)) p 0 ∧ p < w ∧
    e = ds.map (letter pbase) ++ List.replicate (pad p) equals

/-- What an encoder has when its loop is done: all of the bytes, or bits that are written after. -/
theorem encodeLoop_done (hswitch : EncodeSwitch w modes kept step) (hmodes : 0 < modes)
    (hlen : pbase.length = 2 ^ w) (v : Bytes) :
    ∃ mode left ys, encodeLoop pbase step 0 0 [] v = some (mode, left, ys.map (letter pbase)) ∧
      mode < modes ∧ (mode = 0 → Repacked w 8 ys (v.map (·.toNat)) 0 0) ∧
      (mode ≠ 0 → pbase[left]? = some (letter pbase left) ∧
        Repacked w 8 (ys ++ [left]) (v.map (·.toNat)) (w - kept mode) 0 ∧ w - kept mode < w) := by
  have hstart : EncodeInv w kept [] [] 0 0 :=
    ⟨0, by rw [hswitch.kept_zero]; exact Repacked.empty 8 w, fun h => absurd rfl h⟩
  obtain ⟨mode, left, ys, hloop, hmode, acc, hpack, hleft⟩ :=
    encodeLoop_spec hswitch hlen v hmodes hstart
  rw [List.nil_append] at hpack
  refine ⟨mode, left, ys, hloop, hmode, fun h0 => ?_, fun hne => ?_⟩
  · rw [h0, hswitch.kept_zero] at hpack
    obtain rfl := Nat.lt_one_iff.mp hpack.acc_lt
    exact hpack.symm
  · have hpos := hswitch.kept_pos mode hmode hne
    have hlt := hswitch.kept_lt mode hmode
    have hfill := hpack.fill (p := w - kept mode) (by omega)
    rw [← hleft hne] at hfill
    refine ⟨getElem?_letter ?_, hfill, by omega⟩
    rw [hlen]
    exact hfill.left_lt left (List.mem_append_right _ (List.mem_singleton_self left))

end Encoders

section Decoders

/-- The bits that a decoder keeps back in `mode` are `left`. -/
def DecodeInv (w : ℕ) (kept : ℕ → ℕ) (xs ys : List ℕ) (mode left : ℕ) : Prop :=
  ∃ acc, Repacked w 8 xs ys (kept mode) acc ∧ (mode ≠ 0 → left = acc)

structure DecodeSwitch (w modes : ℕ) (kept : ℕ → ℕ) (step : ℕ → ℕ → ℕ → List ℕ × ℕ × ℕ) :
    Prop where
  kept_zero : kept 0 = 0
  keeps : ∀ {mode left dec xs ys}, mode < modes → DecodeInv w kept xs ys mode left → dec < 2 ^ w →
    (step mode left dec).2.2 < modes ∧ DecodeInv w kept (xs ++ [dec])
      (ys ++ (step mode left dec).1) (step mode left dec).2.2 (step mode left dec).2.1

variable {w modes : ℕ} {kept : ℕ → ℕ} {step : ℕ → ℕ → ℕ → List ℕ × ℕ × ℕ} {pbase : Bytes}
  {table : List ℤ} {fold : UInt8 → UInt8}

/-- Every text is characters of the alphabet as far as they go, and what follows them. -/
theorem Tables.exists_digits (h : Tables w pbase table fold) (p : Bytes) :
    ∃ (cs rest : Bytes) (ds : List ℕ), p = cs ++ rest ∧ Outside table rest ∧
      cs.map (fun c : UInt8 => table[c.toNat]?) = ds.map (fun d : ℕ => some (d : ℤ)) ∧
      ds.map (letter pbase) = cs.map fold ∧ ∀ d ∈ ds, d < 2 ^ w := by
  induction p with
  | nil => exact ⟨[], [], [], rfl, by simp [Outside], rfl, rfl, by simp⟩
  | cons c p ih =>
    rcases h.decoded c with hout | ⟨d, hd, htable, hletter⟩
    · exact ⟨[], c :: p, [], rfl, fun a ha => Option.some.inj ha ▸ hout, rfl, rfl, by simp⟩
    · obtain ⟨cs, rest, ds, rfl, hrest, hcs, hfold, hds⟩ := ih
      refine ⟨c :: cs, rest, d :: ds, rfl, hrest, ?_, ?_, List.forall_mem_cons.mpr ⟨hd, hds⟩⟩
      · rw [List.map_cons, List.map_cons, hcs, htable]
      · rw [List.map_cons, List.map_cons, hfold, hletter]

theorem map_ofNat_toNat (v : Bytes) : (v.map (·.toNat)).map UInt8.ofNat = v := by
  rw [List.map_map]
  exact (List.map_congr_left fun _ _ => UInt8.ofNat_toNat).trans (List.map_id v)

theorem map_toNat_ofNat {bs : List ℕ} (h : ∀ b ∈ bs, b < 2 ^ 8) :
    (bs.map UInt8.ofNat).map (·.toNat) = bs := by
  rw [List.map_map]
  exact (List.map_congr_left fun b hb => Nat.mod_eq_of_lt (h b hb)).trans (List.map_id bs)

theorem decodeLoop_spec (hswitch : DecodeSwitch w modes kept step)
    (htables : Tables w pbase table fold) {mode left : ℕ} {xs ys ds : List ℕ} {cs rest : Bytes}
    (hrest : Outside table rest)
    (hcs : cs.map (fun c : UInt8 => table[c.toNat]?) = ds.map (fun d : ℕ => some (d : ℤ)))
    (hds : ∀ d ∈ ds, d < 2 ^ w) (hmode : mode < modes) (hinv : DecodeInv w kept xs ys mode left) :
    ∃ mode' left' ys', decodeLoop table step mode left (ys.map UInt8.ofNat) (cs ++ rest) =
        some (mode', left', ys'.map UInt8.ofNat, rest) ∧
      mode' < modes ∧ DecodeInv w kept (xs ++ ds) ys' mode' left' := by
  induction cs generalizing mode left xs ys ds with
  | nil =>
    obtain rfl := List.map_eq_nil_iff.mp hcs.symm
    refine ⟨mode, left, ys, ?_, hmode, by rwa [List.append_nil]⟩
    cases rest with
    | nil => simp only [List.append_nil, decodeLoop, htables.nul_outside]
    | cons c rest => simp only [List.nil_append, decodeLoop, hrest c rfl, if_true]
  | cons c cs ih =>
    cases ds with
    | nil => exact absurd hcs (by simp)
    | cons d ds =>
      obtain ⟨hc, hcs⟩ := List.cons.inj hcs
      obtain ⟨hd, hds⟩ := List.forall_mem_cons.mp hds
      obtain ⟨hmode', hinv'⟩ := hswitch.keeps hmode hinv hd
      obtain ⟨mode', left', ys', hloop, hlt, hfinal⟩ := ih hcs hds hmode' hinv'
      refine ⟨mode', left', ys', ?_, hlt, ?_⟩
      · have hne : (d : ℤ) ≠ -1 := by omega
        simp only [List.cons_append, decodeLoop, hc, if_neg hne, Int.toNat_natCast]
        rw [← List.map_append]
        exact hloop
      · rwa [List.append_assoc, List.singleton_append] at hfinal

end Decoders

section Switches

def encodeKept64 : ℕ → ℕ
  | 1 => 2
  | 2 => 4
  | _ => 0

def encodeKept32 : ℕ → ℕ
  | 1 => 3
  | 2 => 1
  | 3 => 4
  | 4 => 2
  | _ => 0

def decodeKept64 : ℕ → ℕ
  | 1 => 6
  | 2 => 4
  | 3 => 2
  | _ => 0

def decodeKept32 : ℕ → ℕ
  | 1 => 5
  | 2 => 2
  | 3 => 7
  | 4 => 4
  | 5 => 1
  | 6 => 6
  | 7 => 3
  | _ => 0

theorem encodeSwitch64 : EncodeSwitch 6 3 encodeKept64 encodeStep64 := by
  refine ⟨rfl, by decide, by decide, fun {mode left enc xs ys} hmode hinv henc => ?_⟩
  obtain ⟨acc, h, hleft⟩ := hinv
  match mode with
  | 0 =>
    obtain rfl := Nat.lt_one_iff.mp h.acc_lt
    have hnext := h.pushEmit (j := 2) (i := 6) rfl henc rfl
    rw [Nat.zero_shiftLeft, Nat.zero_or] at hnext
    exact ⟨(by decide : 1 < 3), _, hnext, fun _ => rfl⟩
  | 1 =>
    obtain rfl := hleft (by decide)
    exact ⟨(by decide : 2 < 3), _, h.pushEmit (j := 4) (i := 4) rfl henc rfl, fun _ => rfl⟩
  | 2 =>
    obtain rfl := hleft (by decide)
    have hnext := (h.pushEmit (j := 6) (i := 2) rfl henc rfl).emitLow (j := 0)
    rw [List.append_assoc] at hnext
    exact ⟨(by decide : 0 < 3), _, hnext, fun hne => absurd rfl hne⟩

theorem encodeSwitch32 : EncodeSwitch 5 5 encodeKept32 encodeStep32 := by
  refine ⟨rfl, by decide, by decide, fun {mode left enc xs ys} hmode hinv henc => ?_⟩
  obtain ⟨acc, h, hleft⟩ := hinv
  match mode with
  | 0 =>
    obtain rfl := Nat.lt_one_iff.mp h.acc_lt
    have hnext := h.pushEmit (j := 3) (i := 5) rfl henc rfl
    rw [Nat.zero_shiftLeft, Nat.zero_or] at hnext
    exact ⟨(by decide : 1 < 5), _, hnext, fun _ => rfl⟩
  | 1 =>
    obtain rfl := hleft (by decide)
    have hnext := (h.pushEmit (j := 6) (i := 2) rfl henc rfl).emitLow (j := 1)
    rw [List.append_assoc] at hnext
    exact ⟨(by decide : 2 < 5), _, hnext, fun _ => rfl⟩
  | 2 =>
    obtain rfl := hleft (by decide)
    exact ⟨(by decide : 3 < 5), _, h.pushEmit (j := 4) (i := 4) rfl henc rfl, fun _ => rfl⟩
  | 3 =>
    obtain rfl := hleft (by decide)
    have hnext := (h.pushEmit (j := 7) (i := 1) rfl henc rfl).emitLow (j := 2)
    rw [List.append_assoc] at hnext
    exact ⟨(by decide : 4 < 5), _, hnext, fun _ => rfl⟩
  | 4 =>
    obtain rfl := hleft (by decide)
    have hnext := (h.pushEmit (j := 5) (i := 3) rfl henc rfl).emitLow (j := 0)
    rw [List.append_assoc] at hnext
    exact ⟨(by decide : 0 < 5), _, hnext, fun hne => absurd rfl hne⟩

theorem decodeSwitch64 : DecodeSwitch 6 4 decodeKept64 decodeStep64 := by
  refine ⟨rfl, fun {mode left dec xs ys} hmode hinv hdec => ?_⟩
  obtain ⟨acc, h, hleft⟩ := hinv
  match mode with
  | 0 =>
    obtain rfl := Nat.lt_one_iff.mp h.acc_lt
    have hnext := h.keep hdec
    rw [Nat.zero_shiftLeft, Nat.zero_or, ← List.append_nil ys] at hnext
    exact ⟨(by decide : 1 < 4), _, hnext, fun _ => rfl⟩
  | 1 =>
    obtain rfl := hleft (by decide)
    exact ⟨(by decide : 2 < 4), _, h.pushEmit (j := 4) (i := 2) rfl hdec rfl, fun _ => rfl⟩
  | 2 =>
    obtain rfl := hleft (by decide)
    exact ⟨(by decide : 3 < 4), _, h.pushEmit (j := 2) (i := 4) rfl hdec rfl, fun _ => rfl⟩
  | 3 =>
    obtain rfl := hleft (by decide)
    exact ⟨(by decide : 0 < 4), _, h.pushEmit (j := 0) (i := 6) rfl hdec rfl,
      fun hne => absurd rfl hne⟩

theorem decodeSwitch32 : DecodeSwitch 5 8 decodeKept32 decodeStep32 := by
  refine ⟨rfl, fun {mode left dec xs ys} hmode hinv hdec => ?_⟩
  obtain ⟨acc, h, hleft⟩ := hinv
  match mode with
  | 0 =>
    obtain rfl := Nat.lt_one_iff.mp h.acc_lt
    have hnext := h.keep hdec
    rw [Nat.zero_shiftLeft, Nat.zero_or, ← List.append_nil ys] at hnext
    exact ⟨(by decide : 1 < 8), _, hnext, fun _ => rfl⟩
  | 1 =>
    obtain rfl := hleft (by decide)
    exact ⟨(by decide : 2 < 8), _, h.pushEmit (j := 2) (i := 3) rfl hdec rfl, fun _ => rfl⟩
  | 2 =>
    obtain rfl := hleft (by decide)
    have hnext := h.keep hdec
    rw [← List.append_nil ys] at hnext
    exact ⟨(by decide : 3 < 8), _, hnext, fun _ => rfl⟩
  | 3 =>
    obtain rfl := hleft (by decide)
    exact ⟨(by decide : 4 < 8), _, h.pushEmit (j := 4) (i := 1) rfl hdec rfl, fun _ => rfl⟩
  | 4 =>
    obtain rfl := hleft (by decide)
    exact ⟨(by decide : 5 < 8), _, h.pushEmit (j := 1) (i := 4) rfl hdec rfl, fun _ => rfl⟩
  | 5 =>
    obtain rfl := hleft (by decide)
    have hnext := h.keep hdec
    rw [← List.append_nil ys] at hnext
    exact ⟨(by decide : 6 < 8), _, hnext, fun _ => rfl⟩
  | 6 =>
    obtain rfl := hleft (by decide)
    exact ⟨(by decide : 7 < 8), _, h.pushEmit (j := 3) (i := 2) rfl hdec rfl, fun _ => rfl⟩
  | 7 =>
    obtain rfl := hleft (by decide)
    exact ⟨(by decide : 0 < 8), _, h.pushEmit (j := 0) (i := 5) rfl hdec rfl,
      fun hne => absurd rfl hne⟩

/-- `tolower` on the letters of the alphabet. -/
def lower (c : UInt8) : UInt8 := if 65 ≤ c ∧ c ≤ 90 then c + 32 else c

theorem lower_cases (c : UInt8) :
    lower c = c ∨ ∃ n < 26, c = UInt8.ofNat (65 + n) ∧ lower c = UInt8.ofNat (97 + n) := by
  unfold lower
  split_ifs with h
  · right
    have hlow : 65 ≤ c.toNat := UInt8.le_iff_toNat_le.mp h.1
    have hhigh : c.toNat ≤ 90 := UInt8.le_iff_toNat_le.mp h.2
    refine ⟨c.toNat - 65, by omega, UInt8.toNat_inj.mp ?_, UInt8.toNat_inj.mp ?_⟩
    · rw [UInt8.toNat_ofNat']
      omega
    · have hcase : (32 : UInt8).toNat = 32 := rfl
      rw [UInt8.toNat_ofNat', UInt8.toNat_add, hcase]
      omega
  · exact .inl rfl

/-- One pass over the table of a decoder. -/
theorem decoded_of_all {w : ℕ} {pbase : Bytes} {table : List ℤ} {fold : UInt8 → UInt8}
    (hlen : table.length = 256)
    (h : (table.zipIdx.all fun e => e.1 == -1 || (decide (0 ≤ e.1) && decide (e.1.toNat < 2 ^ w) &&
      letter pbase e.1.toNat == fold (UInt8.ofNat e.2))) = true) (c : UInt8) :
    table[c.toNat]? = some (-1) ∨
      ∃ d : ℕ, d < 2 ^ w ∧ table[c.toNat]? = some (d : ℤ) ∧ letter pbase d = fold c := by
  have hlt : c.toNat < table.length := by
    rw [hlen]
    exact c.toNat_lt
  have hget := List.getElem?_eq_getElem hlt
  have hmem : (table[c.toNat], c.toNat) ∈ table.zipIdx := List.mem_zipIdx_iff_getElem?.mpr hget
  have hentry := List.all_eq_true.mp h _ hmem
  simp only [Bool.or_eq_true, Bool.and_eq_true, beq_iff_eq, decide_eq_true_eq,
    UInt8.ofNat_toNat] at hentry
  rcases hentry with hout | ⟨⟨hnonneg, hdigit⟩, hletter⟩
  · exact .inl (by rw [hget, hout])
  · exact .inr ⟨_, hdigit, by rw [hget, Int.toNat_of_nonneg hnonneg], hletter⟩

theorem pbase64_eq : pbase64 =
    (List.range' 65 26 ++ List.range' 97 26 ++ List.range' 48 10 ++ [43, 47]).map UInt8.ofNat := by
  decide

theorem pbase32_eq : pbase32 = (List.range' 97 26 ++ List.range' 50 6).map UInt8.ofNat := by
  decide

set_option maxRecDepth 2000 in
theorem tables64 : Tables 6 pbase64 decode64Table id where
  length_pbase := by rw [pbase64_eq]; decide
  decoded := decoded_of_all (by decide) (by rw [pbase64_eq]; decide)
  encoded := by rw [pbase64_eq]; decide
  table_fold _ := rfl
  fold_equals _ := Iff.rfl
  equals_outside := by decide
  nul_outside := by decide

set_option maxRecDepth 2000 in
theorem tables32 : Tables 5 pbase32 decode32Table lower where
  length_pbase := by rw [pbase32_eq]; decide
  decoded := decoded_of_all (by decide) (by rw [pbase32_eq]; decide)
  encoded := by rw [pbase32_eq]; decide
  table_fold c := by
    have hletters : ∀ n < 26, decode32Table[(UInt8.ofNat (97 + n)).toNat]? =
        decode32Table[(UInt8.ofNat (65 + n)).toNat]? := by decide
    rcases lower_cases c with hsame | ⟨n, hn, rfl, hlower⟩
    · rw [hsame]
    · rw [hlower, hletters n hn]
  fold_equals c := by
    have hletters : ∀ n < 26, UInt8.ofNat (97 + n) ≠ equals ∧ UInt8.ofNat (65 + n) ≠ equals := by
      decide
    rcases lower_cases c with hsame | ⟨n, hn, rfl, hlower⟩
    · rw [hsame]
    · rw [hlower]
      exact iff_of_false (hletters n hn).1 (hletters n hn).2
  equals_outside := by decide
  nul_outside := by decide

end Switches

section Padding

variable {w : ℕ} {pbase : Bytes} {table : List ℤ} {fold : UInt8 → UInt8}

theorem charAt_eq {p : Bytes} {k : ℕ} (h : k ≤ p.length) :
    charAt p k = some ((p.drop k).headD 0) := by
  have hdrop : ((p ++ [0]).drop k)[0]? = (p ++ [0])[k + 0]? := List.getElem?_drop
  rw [Nat.add_zero, List.drop_append_of_le_length h] at hdrop
  rw [charAt, ← hdrop]
  cases p.drop k with
  | nil => rfl
  | cons c q => rfl

theorem padded_succ {p : Bytes} {n : ℕ} :
    Padded table p (n + 1) ↔ ∃ q, p = equals :: q ∧ Padded table q n := by
  constructor
  · rintro ⟨rest, rfl, hrest⟩
    exact ⟨_, rfl, rest, rfl, hrest⟩
  · rintro ⟨_, rfl, rest, rfl, hrest⟩
    exact ⟨rest, rfl, hrest⟩

theorem outside_of_padded {p : Bytes} {n : ℕ} (htables : Tables w pbase table fold)
    (h : Padded table p n) : Outside table p := by
  cases n with
  | zero =>
    obtain ⟨rest, rfl, hrest⟩ := h
    exact hrest
  | succ n =>
    obtain ⟨q, rfl, -⟩ := padded_succ.mp h
    exact fun c hc => Option.some.inj hc ▸ htables.equals_outside

/-- The check reads the padding and the character after it, and never more than the terminator. -/
theorem unpadded_spec (htables : Tables w pbase table fold) {p : Bytes} {k : ℕ} (n : ℕ)
    (hk : k ≤ p.length) :
    ∃ b, unpadded table p k n = some b ∧ (b = false ↔ Padded table (p.drop k) n) := by
  induction n generalizing k with
  | zero =>
    have hpadded : Padded table (p.drop k) 0 ↔ Outside table (p.drop k) :=
      ⟨outside_of_padded htables, fun h => ⟨_, rfl, h⟩⟩
    simp only [unpadded, charAt_eq hk, hpadded]
    cases hp : p.drop k with
    | nil => exact ⟨false, by simp [htables.nul_outside], by simp [Outside]⟩
    | cons c q =>
      rcases htables.decoded c with hout | ⟨d, -, hd, -⟩
      · exact ⟨false, by simp [hout], by simp [Outside, hout]⟩
      · have hne : (d : ℤ) ≠ -1 := by omega
        exact ⟨true, by simp [hd, hne], by simp [Outside, hd, hne]⟩
  | succ n ih =>
    rw [padded_succ]
    simp only [unpadded, charAt_eq hk]
    cases hp : p.drop k with
    | nil => exact ⟨true, rfl, by simp⟩
    | cons c q =>
      by_cases hc : c = equals
      · have hlt : k < p.length := by
          by_contra hge
          rw [List.drop_eq_nil_of_le (Nat.le_of_not_lt hge)] at hp
          cases hp
        have hnext : p.drop (k + 1) = q := by
          rw [← List.drop_drop, hp, List.drop_succ_cons, List.drop_zero]
        obtain ⟨b, hb, hiff⟩ := ih hlt
        rw [hnext] at hiff
        refine ⟨b, by simpa [hc] using hb, hiff.trans ?_⟩
        simp [hc]
      · exact ⟨true, by simp [hc], by simp [hc]⟩

theorem padInvalid_spec (htables : Tables w pbase table fold) (left : ℕ) (p : Bytes) (n : ℕ) :
    ∃ b, padInvalid table left p n = some b ∧ (b = false ↔ left = 0 ∧ Padded table p n) := by
  unfold padInvalid
  by_cases hleft : left = 0
  · obtain ⟨b, hb, hiff⟩ := unpadded_spec htables n (Nat.zero_le p.length)
    rw [List.drop_zero] at hiff
    exact ⟨b, by simpa [hleft] using hb, by simp [hleft, hiff]⟩
  · exact ⟨true, by simp [hleft], by simp [hleft]⟩

end Padding

section Codecs

variable {w modes : ℕ} {kept pad : ℕ → ℕ} {step : ℕ → ℕ → ℕ → List ℕ × ℕ × ℕ} {pbase : Bytes}
  {table : List ℤ} {fold : UInt8 → UInt8}

/-- The length of the padding where `p` bits of the last letter are zeros. -/
def pad64 : ℕ → ℕ
  | 4 => 2
  | 2 => 1
  | _ => 0

def pad32 : ℕ → ℕ
  | 2 => 6
  | 4 => 4
  | 1 => 3
  | 3 => 1
  | _ => 0

/-- The characters of the alphabet at the front are unpacked to `v`; the text is valid when the bits
that are left are zeros of the last letter and the padding follows. -/
def Decodes (w : ℕ) (pbase : Bytes) (table : List ℤ) (fold : UInt8 → UInt8) (pad : ℕ → ℕ)
    (s v : Bytes) (fInvalid : Bool) : Prop :=
  ∃ (cs rest : Bytes) (ds : List ℕ) (k acc : ℕ), s = cs ++ rest ∧ Outside table rest ∧
    cs.map (fun c : UInt8 => table[c.toNat]?) = ds.map (fun d : ℕ => some (d : ℤ)) ∧
    ds.map (letter pbase) = cs.map fold ∧ Repacked w 8 ds (v.map (·.toNat)) k acc ∧ k < 8 ∧
    (fInvalid = false ↔ k < w ∧ acc = 0 ∧ Padded table rest (pad k))

theorem encodeBase64_encodes (v : Bytes) :
    ∃ e, encodeBase64 v = some e ∧ Encodes 6 pbase64 pad64 v e := by
  obtain ⟨mode, left, ys, hloop, hmode, hzero, hpos⟩ :=
    encodeLoop_done encodeSwitch64 (by decide) tables64.length_pbase v
  simp only [encodeBase64, hloop]
  match mode with
  | 0 => exact ⟨_, rfl, ys, 0, hzero rfl, by decide, (List.append_nil _).symm⟩
  | 1 =>
    obtain ⟨hletter, hpack, hlt⟩ := hpos (by decide)
    refine ⟨_, by simp only [hletter]; rfl, _, _, hpack, hlt, ?_⟩
    rw [List.map_append, List.append_assoc]
    rfl
  | 2 =>
    obtain ⟨hletter, hpack, hlt⟩ := hpos (by decide)
    refine ⟨_, by simp only [hletter]; rfl, _, _, hpack, hlt, ?_⟩
    rw [List.map_append, List.append_assoc]
    rfl

theorem encodeBase32_encodes (v : Bytes) :
    ∃ e, encodeBase32 v = some e ∧ Encodes 5 pbase32 pad32 v e := by
  obtain ⟨mode, left, ys, hloop, hmode, hzero, hpos⟩ :=
    encodeLoop_done encodeSwitch32 (by decide) tables32.length_pbase v
  simp only [encodeBase32, hloop]
  match mode with
  | 0 => exact ⟨_, rfl, ys, 0, hzero rfl, by decide, (List.append_nil _).symm⟩
  | 1 | 2 | 3 | 4 =>
    obtain ⟨hletter, hpack, hlt⟩ := hpos (by decide)
    refine ⟨_, by simp only [hletter]; rfl, _, _, hpack, hlt, ?_⟩
    rw [List.map_append, List.append_assoc]
    rfl

/-- What a decoder has when its loop stops: a text of whole bytes, a text that cannot have been
written, or bits and a rest that are checked. -/
theorem decodeLoop_done (pad : ℕ → ℕ) (hswitch : DecodeSwitch w modes kept step)
    (hmodes : 0 < modes)
    (htables : Tables w pbase table fold) (hw : 0 < w) (hkept : ∀ mode < modes, kept mode < 8)
    (hpad : pad 0 = 0) (s : Bytes) :
    ∃ mode left v rest, decodeLoop table step 0 0 [] s = some (mode, left, v, rest) ∧
      mode < modes ∧ (mode = 0 → Decodes w pbase table fold pad s v false) ∧
      (w ≤ kept mode → Decodes w pbase table fold pad s v true) ∧
      (mode ≠ 0 → kept mode < w → ∃ b, padInvalid table left rest (pad (kept mode)) = some b ∧
        Decodes w pbase table fold pad s v b) := by
  obtain ⟨cs, rest, ds, hs, hrest, hcs, hfold, hds⟩ := htables.exists_digits s
  have hstart : DecodeInv w kept [] [] 0 0 :=
    ⟨0, by rw [hswitch.kept_zero]; exact Repacked.empty w 8, fun h => absurd rfl h⟩
  obtain ⟨mode, left, ys, hloop, hmode, acc, hpack, hleft⟩ :=
    decodeLoop_spec hswitch htables hrest hcs hds hmodes hstart
  rw [List.nil_append, ← map_toNat_ofNat hpack.right_lt] at hpack
  have hdone : ∀ b, (b = false ↔ kept mode < w ∧ acc = 0 ∧ Padded table rest (pad (kept mode))) →
      Decodes w pbase table fold pad s (ys.map UInt8.ofNat) b := fun b hb =>
    ⟨cs, rest, ds, kept mode, acc, hs, hrest, hcs, hfold, hpack, hkept mode hmode, hb⟩
  refine ⟨mode, left, ys.map UInt8.ofNat, rest, by rw [hs]; exact hloop, hmode, fun h0 => ?_,
    fun hge => ?_, fun hne hlt => ?_⟩
  · have hacc := hpack.acc_lt
    rw [h0, hswitch.kept_zero] at hacc hdone
    exact hdone false ⟨fun _ => ⟨hw, Nat.lt_one_iff.mp hacc, rest, by rw [hpad]; rfl, hrest⟩,
      fun _ => rfl⟩
  · exact hdone true ⟨fun h => (Bool.false_ne_true h.symm).elim,
      fun h => absurd h.1 (Nat.not_lt.mpr hge)⟩
  · obtain ⟨b, hb, hiff⟩ := padInvalid_spec htables left rest (pad (kept mode))
    rw [hleft hne] at hiff
    exact ⟨b, hb, hdone b (hiff.trans (iff_and_self.mpr fun _ => hlt))⟩

theorem decodeBase64_decodes (s : Bytes) :
    ∃ v fInvalid, decodeBase64 s = some (v, fInvalid) ∧
      Decodes 6 pbase64 decode64Table id pad64 s v fInvalid := by
  obtain ⟨mode, left, v, rest, hloop, hmode, hwhole, hnever, hcheck⟩ := decodeLoop_done
    pad64 decodeSwitch64 (by decide) tables64 (by decide) (by decide) rfl s
  simp only [decodeBase64, hloop]
  match mode with
  | 0 => exact ⟨v, false, rfl, hwhole rfl⟩
  | 1 => exact ⟨v, true, rfl, hnever (by decide)⟩
  | 2 | 3 =>
    obtain ⟨b, hb, hdecodes⟩ := hcheck (by decide) (by decide)
    exact ⟨v, b, congrArg (Option.map fun fInvalid => (v, fInvalid)) hb, hdecodes⟩

theorem decodeBase32_decodes (s : Bytes) :
    ∃ v fInvalid, decodeBase32 s = some (v, fInvalid) ∧
      Decodes 5 pbase32 decode32Table lower pad32 s v fInvalid := by
  obtain ⟨mode, left, v, rest, hloop, hmode, hwhole, hnever, hcheck⟩ := decodeLoop_done
    pad32 decodeSwitch32 (by decide) tables32 (by decide) (by decide) rfl s
  simp only [decodeBase32, hloop]
  match mode with
  | 0 => exact ⟨v, false, rfl, hwhole rfl⟩
  | 1 | 3 | 6 => exact ⟨v, true, rfl, hnever (by decide)⟩
  | 2 | 4 | 5 | 7 =>
    obtain ⟨b, hb, hdecodes⟩ := hcheck (by decide) (by decide)
    exact ⟨v, b, congrArg (Option.map fun fInvalid => (v, fInvalid)) hb, hdecodes⟩

theorem Encodes.unique {v e e' : Bytes} (h : Encodes w pbase pad v e)
    (h' : Encodes w pbase pad v e') : e = e' := by
  obtain ⟨ds, p, hpack, hp, rfl⟩ := h
  obtain ⟨ds', p', hpack', hp', rfl⟩ := h'
  obtain ⟨rfl, rfl⟩ := hpack.left_unique hpack' hp hp'
  rfl

theorem map_fold_replicate (htables : Tables w pbase table fold) (n : ℕ) :
    (List.replicate n equals).map fold = List.replicate n equals := by
  rw [List.map_replicate, (htables.fold_equals equals).mpr rfl]

theorem outside_map_fold (htables : Tables w pbase table fold) {p : Bytes} :
    Outside table (p.map fold) ↔ Outside table p := by
  cases p with
  | nil => exact Iff.rfl
  | cons c p => simp [Outside, htables.table_fold]

/-- A valid text begins, up to the fold, with the encoding of what it is decoded to. -/
theorem Decodes.begins (htables : Tables w pbase table fold) {s v : Bytes}
    (h : Decodes w pbase table fold pad s v false) :
    ∃ e rest, Encodes w pbase pad v e ∧ s.map fold = e ++ rest ∧ Outside table rest := by
  obtain ⟨cs, rest, ds, k, acc, rfl, -, -, hfold, hpack, -, hvalid⟩ := h
  obtain ⟨hk, rfl, rest', rfl, hrest'⟩ := hvalid.mp rfl
  refine ⟨_, rest'.map fold, ⟨ds, k, hpack, hk, rfl⟩, ?_, (outside_map_fold htables).mpr hrest'⟩
  rw [List.map_append, List.map_append, map_fold_replicate htables, hfold, List.append_assoc]

theorem split_unique {a a' b b' : Bytes} (h : a ++ b = a' ++ b')
    (ha : ∀ c ∈ a, table[c.toNat]? ≠ some (-1)) (ha' : ∀ c ∈ a', table[c.toNat]? ≠ some (-1))
    (hb : Outside table b) (hb' : Outside table b') : a = a' ∧ b = b' := by
  induction a generalizing a' with
  | nil =>
    cases a' with
    | nil => exact ⟨rfl, h⟩
    | cons c a' =>
      rw [List.nil_append] at h
      exact absurd (hb c (h ▸ rfl)) (ha' c List.mem_cons_self)
  | cons c a ih =>
    cases a' with
    | nil =>
      rw [List.nil_append] at h
      exact absurd (hb' c (h ▸ rfl)) (ha c List.mem_cons_self)
    | cons c' a' =>
      obtain ⟨rfl, htail⟩ := List.cons.inj h
      obtain ⟨rfl, rfl⟩ := ih htail (fun d hd => ha d (List.mem_cons_of_mem _ hd))
        fun d hd => ha' d (List.mem_cons_of_mem _ hd)
      exact ⟨rfl, rfl⟩

theorem letter_inside (htables : Tables w pbase table fold) {ds : List ℕ}
    (hds : ∀ d ∈ ds, d < 2 ^ w) : ∀ c ∈ ds.map (letter pbase), table[c.toNat]? ≠ some (-1) := by
  intro c hc
  obtain ⟨d, hd, rfl⟩ := List.mem_map.mp hc
  rw [htables.encoded d (hds d hd)]
  exact fun h => by
    have hneg := Option.some.inj h
    omega

theorem letter_inj (htables : Tables w pbase table fold) {ds ds' : List ℕ}
    (hds : ∀ d ∈ ds, d < 2 ^ w) (hds' : ∀ d ∈ ds', d < 2 ^ w)
    (h : ds.map (letter pbase) = ds'.map (letter pbase)) : ds = ds' := by
  have hback : ∀ xs : List ℕ, (∀ d ∈ xs, d < 2 ^ w) →
      (xs.map (letter pbase)).map (fun c : UInt8 => table[c.toNat]?) =
        xs.map (fun d : ℕ => some (d : ℤ)) := by
    intro xs hxs
    rw [List.map_map]
    exact List.map_congr_left fun d hd => htables.encoded d (hxs d hd)
  have hsome := (hback ds hds).symm.trans ((congrArg _ h).trans (hback ds' hds'))
  exact List.map_injective_iff.mpr
    (fun a b hab => Int.natCast_inj.mp (Option.some.inj hab)) hsome

theorem padded_of_map_fold (htables : Tables w pbase table fold) {p rest : Bytes} {n : ℕ}
    (h : p.map fold = List.replicate n equals ++ rest) (hrest : Outside table rest) :
    Padded table p n := by
  obtain ⟨front, rest', rfl, hfront, rfl⟩ := List.map_eq_append_iff.mp h
  refine ⟨rest', ?_, (outside_map_fold htables).mp hrest⟩
  have hlen := congrArg List.length hfront
  rw [List.length_map, List.length_replicate] at hlen
  congr 1
  refine List.eq_replicate_iff.mpr ⟨hlen, fun c hc => (htables.fold_equals c).mp ?_⟩
  exact List.eq_of_mem_replicate (hfront ▸ List.mem_map_of_mem hc)

/-- A text that begins, up to the fold, with the encoding of some bytes is valid and decoded to
them, whatever follows that is not of the alphabet. -/
theorem Decodes.of_begins (htables : Tables w pbase table fold) (hw : w ≤ 8) {s v v' e rest : Bytes}
    {fInvalid : Bool} (h : Decodes w pbase table fold pad s v' fInvalid)
    (he : Encodes w pbase pad v e) (hs : s.map fold = e ++ rest) (hrest : Outside table rest) :
    v' = v ∧ fInvalid = false := by
  obtain ⟨cs, rest', ds', k, acc, rfl, hrest', -, hfold, hpack', hk, hvalid⟩ := h
  obtain ⟨ds, p, hpack, hp, rfl⟩ := he
  rw [List.map_append, ← hfold, List.append_assoc] at hs
  have htail : Outside table (List.replicate (pad p) equals ++ rest) :=
    outside_of_padded htables ⟨rest, rfl, hrest⟩
  obtain ⟨hletters, hafter⟩ := split_unique hs (letter_inside htables hpack'.left_lt)
    (letter_inside htables hpack.left_lt) ((outside_map_fold htables).mpr hrest') htail
  obtain rfl := letter_inj htables hpack'.left_lt hpack.left_lt hletters
  obtain ⟨rfl, hacc, hbytes⟩ := hpack'.right_unique hpack hk (hp.trans_le hw)
  refine ⟨?_, hvalid.mpr ⟨hp, hacc, padded_of_map_fold htables hafter hrest⟩⟩
  rw [← map_ofNat_toNat v', hbytes, map_ofNat_toNat]

end Codecs

/-- What is encoded is decoded again, every text is decoded or refused within the tables, and the
valid texts are the encodings with anything behind them that does not begin with a letter. -/
structure RoundTrips (encode : Bytes → Option Bytes) (decode : Bytes → Option (Bytes × Bool))
    (table : List ℤ) (fold : UInt8 → UInt8) : Prop where
  decode_encode : ∀ v, ∃ e, encode v = some e ∧ decode e = some (v, false)
  decode_total : ∀ s, ∃ v fInvalid, decode s = some (v, fInvalid)
  valid_iff : ∀ s v, decode s = some (v, false) ↔
    ∃ e rest, encode v = some e ∧ s.map fold = e ++ rest ∧ Outside table rest

theorem roundTrips {w : ℕ} {pbase : Bytes} {table : List ℤ} {fold : UInt8 → UInt8} {pad : ℕ → ℕ}
    {encode : Bytes → Option Bytes} {decode : Bytes → Option (Bytes × Bool)} (hw : w ≤ 8)
    (htables : Tables w pbase table fold)
    (hfold : ∀ d < 2 ^ w, fold (letter pbase d) = letter pbase d)
    (hencode : ∀ v, ∃ e, encode v = some e ∧ Encodes w pbase pad v e)
    (hdecode : ∀ s, ∃ v fInvalid, decode s = some (v, fInvalid) ∧
      Decodes w pbase table fold pad s v fInvalid) : RoundTrips encode decode table fold := by
  have hvalid : ∀ s v, decode s = some (v, false) ↔
      ∃ e rest, encode v = some e ∧ s.map fold = e ++ rest ∧ Outside table rest := by
    intro s v
    obtain ⟨v', fInvalid, hs, hdecodes⟩ := hdecode s
    obtain ⟨e, he, hencodes⟩ := hencode v
    constructor
    · intro h
      obtain ⟨rfl, rfl⟩ := Prod.mk.inj (Option.some.inj (hs.symm.trans h))
      obtain ⟨e', rest, hencodes', hsplit, hrest⟩ := hdecodes.begins htables
      exact ⟨e, rest, he, hencodes'.unique hencodes ▸ hsplit, hrest⟩
    · rintro ⟨e', rest, he', hsplit, hrest⟩
      obtain rfl := Option.some.inj (he.symm.trans he')
      obtain ⟨rfl, rfl⟩ := hdecodes.of_begins htables hw hencodes hsplit hrest
      exact hs
  refine ⟨fun v => ?_, fun s => ?_, hvalid⟩
  · obtain ⟨e, he, ds, p, hpack, -, rfl⟩ := hencode v
    refine ⟨_, he, (hvalid _ v).mpr ⟨_, [], he, ?_, by simp [Outside]⟩⟩
    rw [List.append_nil, List.map_append, map_fold_replicate htables, List.map_map]
    congr 1
    exact List.map_congr_left fun d hd => hfold d (hpack.left_lt d hd)
  · obtain ⟨v, fInvalid, hs, -⟩ := hdecode s
    exact ⟨v, fInvalid, hs⟩

theorem base_texts :
    RoundTrips encodeBase64 decodeBase64 decode64Table id ∧
      RoundTrips encodeBase32 decodeBase32 decode32Table lower :=
  ⟨roundTrips (by decide) tables64 (fun _ _ => rfl) encodeBase64_encodes decodeBase64_decodes,
    roundTrips (by decide) tables32 (by decide) encodeBase32_encodes decodeBase32_decodes⟩

/-- Whole groups of letters are valid whatever padding follows them. -/
theorem padding_ignored :
    ¬∀ (a : Bytes) (m n : ℕ) (v : Bytes),
      decodeBase64 (a ++ List.replicate m equals) = some (v, false) →
      decodeBase64 (a ++ List.replicate n equals) = some (v, false) → m = n :=
  fun h => absurd (h [65, 65, 65, 65] 0 1 [0, 0, 0] (by decide) (by decide)) (by decide)

end Scrypta.Base64
