import Scrypta.StackSafety

/-! The encoding that a signature has to have: strict DER with the hash type after it. The check
reads lengths from the string and goes on from there. -/

namespace Scrypta.Interpreter

/-! The check with each byte that it reads; `none` is a read outside of the string. -/

/-- Null bytes at the start of an integer of `len` bytes. -/
def readPadding (sig : Bytes) (start len : ℕ) : Option Bool :=
  if 1 < len then
    sig[start]?.bind fun first =>
      if first = 0x00 then sig[start + 1]?.bind fun second => some (second &&& 0x80 == 0)
      else some false
  else some false

def readSignatureEncoding (sig : Bytes) : Option Bool :=
  if sig.length < 9 then some false
  else if 73 < sig.length then some false
  else
    sig[0]?.bind fun type =>
    if type ≠ 0x30 then some false
    else
      sig[1]?.bind fun total =>
      if total.toNat ≠ sig.length - 3 then some false
      else
        sig[3]?.bind fun lenR =>
        if sig.length ≤ 5 + lenR.toNat then some false
        else
          sig[5 + lenR.toNat]?.bind fun lenS =>
          if lenR.toNat + lenS.toNat + 7 ≠ sig.length then some false
          else
            sig[2]?.bind fun typeR =>
            if typeR ≠ 0x02 then some false
            else if lenR.toNat = 0 then some false
            else
              sig[4]?.bind fun firstR =>
              if firstR &&& 0x80 ≠ 0 then some false
              else
                (readPadding sig 4 lenR.toNat).bind fun paddedR =>
                if paddedR then some false
                else
                  sig[lenR.toNat + 4]?.bind fun typeS =>
                  if typeS ≠ 0x02 then some false
                  else if lenS.toNat = 0 then some false
                  else
                    sig[lenR.toNat + 6]?.bind fun firstS =>
                    if firstS &&& 0x80 ≠ 0 then some false
                    else (readPadding sig (lenR.toNat + 6) lenS.toNat).map (!·)

/-- The bytes of `S` lie inside of the string up to the last of them. -/
def readLowDERSignature (vchSig : Bytes) : Option (Except ScriptError Unit) :=
  (readSignatureEncoding vchSig).bind fun valid =>
  if !valid then some (.error .sigDer)
  else
    vchSig[3]?.bind fun nLenR =>
    vchSig[5 + nLenR.toNat]?.bind fun nLenS =>
    if vchSig.length ≤ 6 + nLenR.toNat ∨ vchSig.length < 6 + nLenR.toNat + nLenS.toNat then none
    else if checkSignatureElement ((vchSig.drop (6 + nLenR.toNat)).take nLenS.toNat) then
      some (.ok ())
    else some (.error .sigHighS)

section Reads

variable {sig : Bytes} {i start len : ℕ}

theorem getElem?_eq_getD (h : i < sig.length) : sig[i]? = some (sig.getD i 0) := by
  rw [List.getD_eq_getElem?_getD, List.getElem?_eq_getElem h]
  rfl

theorem readPadding_eq (h : start + len ≤ sig.length) :
    readPadding sig start len = some (isPadded sig start len) := by
  unfold readPadding isPadded
  by_cases hlen : 1 < len
  · rw [if_pos hlen, getElem?_eq_getD (by omega), Option.bind_some, decide_eq_true hlen,
      Bool.true_and]
    by_cases hfirst : sig.getD start 0 = 0x00
    · rw [if_pos hfirst, getElem?_eq_getD (by omega), hfirst]
      rfl
    · rw [if_neg hfirst, beq_eq_false_iff_ne.2 hfirst]
      rfl
  · rw [if_neg hlen, decide_eq_false hlen]
    rfl

/-- Every index is covered by a test before it. -/
theorem readSignatureEncoding_eq (sig : Bytes) :
    readSignatureEncoding sig = some (isValidSignatureEncoding sig) := by
  unfold readSignatureEncoding isValidSignatureEncoding
  by_cases hshort : sig.length < 9
  · rw [if_pos hshort, if_pos hshort]
  rw [if_neg hshort, if_neg hshort]
  by_cases hlong : 73 < sig.length
  · rw [if_pos hlong, if_pos hlong]
  rw [if_neg hlong, if_neg hlong, getElem?_eq_getD (by omega), Option.bind_some]
  by_cases htype : sig.getD 0 0 ≠ 0x30
  · rw [if_pos htype, if_pos htype]
  rw [if_neg htype, if_neg htype, getElem?_eq_getD (by omega), Option.bind_some]
  by_cases htotal : (sig.getD 1 0).toNat ≠ sig.length - 3
  · rw [if_pos htotal, if_pos htotal]
  rw [if_neg htotal, if_neg htotal, getElem?_eq_getD (by omega), Option.bind_some]
  dsimp only
  generalize (sig.getD 3 0).toNat = lenR
  by_cases hinside : sig.length ≤ 5 + lenR
  · rw [if_pos hinside, if_pos hinside]
  rw [if_neg hinside, if_neg hinside, getElem?_eq_getD (by omega), Option.bind_some]
  generalize (sig.getD (5 + lenR) 0).toNat = lenS
  by_cases hsum : lenR + lenS + 7 ≠ sig.length
  · rw [if_pos hsum, if_pos hsum]
  rw [if_neg hsum, if_neg hsum, getElem?_eq_getD (by omega), Option.bind_some]
  by_cases htypeR : sig.getD 2 0 ≠ 0x02
  · rw [if_pos htypeR, if_pos htypeR]
  rw [if_neg htypeR, if_neg htypeR]
  by_cases hzeroR : lenR = 0
  · rw [if_pos hzeroR, if_pos hzeroR]
  rw [if_neg hzeroR, if_neg hzeroR, getElem?_eq_getD (by omega), Option.bind_some]
  by_cases hnegR : sig.getD 4 0 &&& 0x80 ≠ 0
  · rw [if_pos hnegR, if_pos hnegR]
  rw [if_neg hnegR, if_neg hnegR, readPadding_eq (by omega), Option.bind_some]
  cases isPadded sig 4 lenR with
  | true => rfl
  | false =>
    rw [if_neg Bool.false_ne_true, if_neg Bool.false_ne_true, getElem?_eq_getD (by omega),
      Option.bind_some]
    by_cases htypeS : sig.getD (lenR + 4) 0 ≠ 0x02
    · rw [if_pos htypeS, if_pos htypeS]
    rw [if_neg htypeS, if_neg htypeS]
    by_cases hzeroS : lenS = 0
    · rw [if_pos hzeroS, if_pos hzeroS]
    rw [if_neg hzeroS, if_neg hzeroS, getElem?_eq_getD (by omega), Option.bind_some]
    by_cases hnegS : sig.getD (lenR + 6) 0 &&& 0x80 ≠ 0
    · rw [if_pos hnegS, if_pos hnegS]
    rw [if_neg hnegS, if_neg hnegS, readPadding_eq (by omega)]
    rfl

end Reads

/-! The grammar. -/

/-- The bytes of a number, the highest first, without a sign or a zero that could be left out. -/
def PositiveInteger : Bytes → Prop
  | [] => False
  | [first] => first.toNat < 128
  | first :: second :: _ => first.toNat < 128 ∧ (first = 0 → 128 ≤ second.toNat)

/-- `30 L 02 r R 02 s S h` -/
def StrictDER (sig : Bytes) : Prop :=
  ∃ (L r : UInt8) (R : Bytes) (s : UInt8) (S : Bytes) (h : UInt8),
    sig = [0x30, L, 0x02, r] ++ (R ++ ([0x02, s] ++ (S ++ [h]))) ∧
      L.toNat = sig.length - 3 ∧ r.toNat = R.length ∧ s.toNat = S.length ∧ sig.length ≤ 73 ∧
      PositiveInteger R ∧ PositiveInteger S

section Grammar

variable {sig : Bytes}

theorem isValidSignatureEncoding_iff : isValidSignatureEncoding sig = true ↔
    9 ≤ sig.length ∧ sig.length ≤ 73 ∧ sig.getD 0 0 = 0x30 ∧
      (sig.getD 1 0).toNat = sig.length - 3 ∧ 5 + (sig.getD 3 0).toNat < sig.length ∧
      (sig.getD 3 0).toNat + (sig.getD (5 + (sig.getD 3 0).toNat) 0).toNat + 7 = sig.length ∧
      sig.getD 2 0 = 0x02 ∧
      ((sig.getD 3 0).toNat ≠ 0 ∧ sig.getD 4 0 &&& 0x80 = 0 ∧
        isPadded sig 4 (sig.getD 3 0).toNat = false) ∧
      sig.getD ((sig.getD 3 0).toNat + 4) 0 = 0x02 ∧
      (sig.getD (5 + (sig.getD 3 0).toNat) 0).toNat ≠ 0 ∧
      sig.getD ((sig.getD 3 0).toNat + 6) 0 &&& 0x80 = 0 ∧
      isPadded sig ((sig.getD 3 0).toNat + 6) (sig.getD (5 + (sig.getD 3 0).toNat) 0).toNat =
        false := by
  unfold isValidSignatureEncoding
  simp only [Bool.if_false_left, Bool.and_eq_true, Bool.not_eq_true', decide_eq_false_iff_not,
    not_lt, not_le, not_not, Bool.not_eq_true, ne_eq]
  tauto

/-- Where an integer stands, the tests on its first bytes tell whether it is a positive one. -/
theorem positiveInteger_iff (before V after : Bytes) : PositiveInteger V ↔
    V.length ≠ 0 ∧ (before ++ (V ++ after)).getD before.length 0 &&& 0x80 = 0 ∧
      isPadded (before ++ (V ++ after)) before.length V.length = false := by
  have hget : ∀ i, (before ++ (V ++ after)).getD (before.length + i) 0 = (V ++ after).getD i 0 := by
    intro i
    rw [List.getD_eq_getElem?_getD, List.getElem?_append_right (Nat.le_add_right _ _),
      Nat.add_sub_cancel_left, ← List.getD_eq_getElem?_getD]
  have hget0 := hget 0
  rw [Nat.add_zero] at hget0
  have htop : ∀ b : UInt8, b &&& 0x80 = 0 ↔ b.toNat < 128 := fun b =>
    not_iff_not.1 ((CScriptNum.and_0x80 b).trans not_lt.symm)
  rw [isPadded, hget, hget0]
  match V with
  | [] => simp [PositiveInteger]
  | [first] => simp [PositiveInteger, htop]
  | first :: second :: rest =>
    have hnot : ∀ b : UInt8, (b &&& 0x80 == 0) = false ↔ 128 ≤ b.toNat := fun b => by
      rw [beq_eq_false_iff_ne, CScriptNum.and_0x80]
    simp [PositiveInteger, htop, hnot]

/-- The lengths in the string cut it into its parts. -/
theorem exists_parts {lenR lenS : ℕ} (hR : (sig.getD 3 0).toNat = lenR)
    (hS : (sig.getD (5 + lenR) 0).toNat = lenS) (h : lenR + lenS + 7 = sig.length) :
    ∃ (a L b r : UInt8) (R : Bytes) (c s : UInt8) (S : Bytes) (t : UInt8),
      sig = [a, L, b, r] ++ (R ++ ([c, s] ++ (S ++ [t]))) ∧ r.toNat = R.length ∧
        s.toNat = S.length := by
  match sig, h with
  | a :: L :: b :: r :: rest, h =>
    simp only [List.length_cons] at h
    have hr : r.toNat = lenR := hR
    have hcut : rest.take lenR ++ rest.drop lenR = rest := List.take_append_drop _ _
    have hlenR : (rest.take lenR).length = lenR := by
      rw [List.length_take]
      omega
    have hlen : (rest.drop lenR).length = lenS + 3 := by
      rw [List.length_drop]
      omega
    match hdrop : rest.drop lenR, hlen with
    | c :: s :: tail, hlen =>
      simp only [List.length_cons] at hlen
      have hs : s.toNat = lenS := by
        rw [← hcut, hdrop, List.getD_eq_getElem?_getD, Nat.add_comm] at hS
        simp only [List.getElem?_cons_succ] at hS
        rw [List.getElem?_append_right (by omega), hlenR, Nat.add_sub_cancel_left] at hS
        exact hS
      have hne : tail ≠ [] := fun hnil => by
        rw [hnil] at hlen
        cases hlen
      refine ⟨a, L, b, r, rest.take lenR, c, s, tail.dropLast, tail.getLast hne, ?_, ?_, ?_⟩
      · rw [List.dropLast_concat_getLast, List.cons_append, List.cons_append, List.cons_append,
          List.cons_append, List.nil_append]
        change _ = a :: L :: b :: r :: (rest.take lenR ++ c :: s :: tail)
        rw [← hdrop, hcut]
      · rw [hr, hlenR]
      · rw [hs, List.length_dropLast]
        omega

/-- On a string in parts the check looks at each part. -/
theorem isValidSignatureEncoding_parts {a L b r c s t : UInt8} {R S : Bytes}
    (hsig : sig = [a, L, b, r] ++ (R ++ ([c, s] ++ (S ++ [t])))) (hr : r.toNat = R.length)
    (hs : s.toNat = S.length) : isValidSignatureEncoding sig = true ↔
      a = 0x30 ∧ L.toNat = sig.length - 3 ∧ b = 0x02 ∧ c = 0x02 ∧ sig.length ≤ 73 ∧
        PositiveInteger R ∧ PositiveInteger S := by
  have hlen : sig.length = R.length + S.length + 7 := by
    rw [hsig]
    simp only [List.length_append, List.length_cons, List.length_nil]
    omega
  have hsig2 : sig = ([a, L, b, r] ++ R ++ [c, s]) ++ (S ++ [t]) := by
    rw [hsig]
    simp only [List.append_assoc]
  have hlen2 : ([a, L, b, r] ++ R ++ [c, s]).length = R.length + 6 := by
    simp only [List.length_append, List.length_cons, List.length_nil]
    omega
  have hlast : ∀ i, sig.getD (R.length + 4 + i) 0 = ([c, s] ++ (S ++ [t])).getD i 0 := by
    intro i
    have hsplit : sig = ([a, L, b, r] ++ R) ++ ([c, s] ++ (S ++ [t])) := by
      rw [hsig, List.append_assoc]
    have hfour : ([a, L, b, r] ++ R).length = R.length + 4 := by
      simp only [List.length_append, List.length_cons, List.length_nil]
      omega
    rw [hsplit, List.getD_eq_getElem?_getD, List.getElem?_append_right (by omega), hfour,
      Nat.add_sub_cancel_left, ← List.getD_eq_getElem?_getD]
  have hget3 : (sig.getD 3 0).toNat = R.length := by
    rw [hsig]
    exact hr
  have hget5 : (sig.getD (5 + R.length) 0).toNat = S.length := by
    rw [show 5 + R.length = R.length + 4 + 1 by omega, hlast]
    exact hs
  have hR := positiveInteger_iff [a, L, b, r] R ([c, s] ++ (S ++ [t]))
  have hS := positiveInteger_iff ([a, L, b, r] ++ R ++ [c, s]) S [t]
  rw [← hsig] at hR
  rw [← hsig2, hlen2] at hS
  have hc : sig.getD (R.length + 4) 0 = c := hlast 0
  have h0 : sig.getD 0 0 = a := by rw [hsig]; rfl
  have h1 : sig.getD 1 0 = L := by rw [hsig]; rfl
  have h2 : sig.getD 2 0 = b := by rw [hsig]; rfl
  rw [isValidSignatureEncoding_iff, hget3, hget5, hc, h0, h1, h2, hR, hS]
  constructor
  · rintro ⟨-, hmax, ha, hL, -, -, hb, hRs, hcc, hSs⟩
    exact ⟨ha, hL, hb, hcc, hmax, hRs, hSs⟩
  · rintro ⟨ha, hL, hb, hcc, hmax, hRs, hSs⟩
    have hRpos := hRs.1
    have hSpos := hSs.1
    exact ⟨by omega, hmax, ha, hL, by omega, by omega, hb, hRs, hcc, hSs⟩

/-- The check accepts the strict encodings and nothing else. -/
theorem isValidSignatureEncoding_iff_strictDER (sig : Bytes) :
    isValidSignatureEncoding sig = true ↔ StrictDER sig := by
  constructor
  · intro h
    obtain ⟨-, -, -, -, -, hsum, -⟩ := isValidSignatureEncoding_iff.1 h
    obtain ⟨a, L, b, r, R, c, s, S, t, hsig, hr, hs⟩ := exists_parts rfl rfl hsum
    obtain ⟨rfl, hL, rfl, rfl, hmax, hR, hS⟩ := (isValidSignatureEncoding_parts hsig hr hs).1 h
    exact ⟨L, r, R, s, S, t, hsig, hL, hr, hs, hmax, hR, hS⟩
  · rintro ⟨L, r, R, s, S, t, hsig, hL, hr, hs, hmax, hR, hS⟩
    exact (isValidSignatureEncoding_parts hsig hr hs).2 ⟨rfl, hL, rfl, rfl, hmax, hR, hS⟩

instance : DecidablePred StrictDER := fun sig =>
  decidable_of_iff _ (isValidSignatureEncoding_iff_strictDER sig)

end Grammar

section Checks

variable {sig : Bytes} {flags : BitVec 32}

/-- What was checked keeps the accesses after it inside of the string. -/
theorem readLowDERSignature_eq (sig : Bytes) :
    readLowDERSignature sig = some (isLowDERSignature sig) := by
  unfold readLowDERSignature isLowDERSignature
  rw [readSignatureEncoding_eq, Option.bind_some]
  cases hvalid : isValidSignatureEncoding sig with
  | false => rfl
  | true =>
    obtain ⟨-, -, -, -, hinside, hsum, -, -, -, hlenS, -⟩ := isValidSignatureEncoding_iff.1 hvalid
    rw [if_neg (by decide), if_neg (by decide), getElem?_eq_getD (by omega), Option.bind_some,
      getElem?_eq_getD (by omega), Option.bind_some, if_neg (by omega)]
    dsimp only
    split <;> rfl

/-- The three flags that ask for an encoding. -/
def encodingFlags : BitVec 32 := scriptVerifyDerSig ||| scriptVerifyLowS ||| scriptVerifyStrictEnc

theorem hasFlag_of_and_eq {flag flags' : BitVec 32} (hflag : flags' &&& flag = flag)
    (h : hasFlag flags flag = true) : hasFlag flags flags' = true := by
  rw [hasFlag, bne_iff_ne] at h ⊢
  intro hzero
  rw [← hflag, ← BitVec.and_assoc, hzero] at h
  exact h BitVec.zero_and

theorem isLowDERSignature_of_valid (h : isValidSignatureEncoding sig = true) :
    isLowDERSignature sig = .ok () ∨ isLowDERSignature sig = .error .sigHighS := by
  rw [isLowDERSignature, h, if_neg (by decide)]
  dsimp only
  split
  · exact Or.inl rfl
  · exact Or.inr rfl

/-- The checks after the one of the encoding. -/
def checkRest (sig : Bytes) (flags : BitVec 32) : Except ScriptError Unit :=
  (if hasFlag flags scriptVerifyLowS then isLowDERSignature sig else .ok ()).bind fun _ =>
    if hasFlag flags scriptVerifyStrictEnc ∧ !isDefinedHashtypeSignature sig then
      .error .sigHashType
    else .ok ()

theorem checkSignatureEncoding_eq (hne : sig ≠ []) : checkSignatureEncoding sig flags =
    if hasFlag flags encodingFlags = true ∧ ¬StrictDER sig then .error .sigDer
    else checkRest sig flags := by
  have hlen : sig.length ≠ 0 := fun hzero => hne (List.eq_nil_of_length_eq_zero hzero)
  rw [checkSignatureEncoding, if_neg hlen]
  change (if hasFlag flags encodingFlags = true ∧ (!isValidSignatureEncoding sig) = true then _
    else _) = _
  have hinvalid : (!isValidSignatureEncoding sig) = true ↔ ¬StrictDER sig := by
    rw [Bool.not_eq_true', ← Bool.not_eq_true, isValidSignatureEncoding_iff_strictDER]
  refine if_congr (and_congr_right fun _ => hinvalid) rfl ?_
  unfold checkRest
  cases hasFlag flags scriptVerifyLowS <;> rfl

/-- With the encoding checked, the rest is about the value of `S` and the hash type. -/
theorem checkRest_ok_iff : checkRest sig flags = .ok () ↔
    (hasFlag flags scriptVerifyLowS = true → isLowDERSignature sig = .ok ()) ∧
      (hasFlag flags scriptVerifyStrictEnc = true → isDefinedHashtypeSignature sig = true) := by
  unfold checkRest
  cases hasFlag flags scriptVerifyLowS with
  | false => cases hasFlag flags scriptVerifyStrictEnc <;>
      cases isDefinedHashtypeSignature sig <;> simp [Except.bind]
  | true =>
    cases isLowDERSignature sig with
    | error e => simp [Except.bind]
    | ok u => cases hasFlag flags scriptVerifyStrictEnc <;>
        cases isDefinedHashtypeSignature sig <;> simp [Except.bind]

theorem checkRest_ne_sigDer (h : StrictDER sig ∨ hasFlag flags encodingFlags = false) :
    checkRest sig flags ≠ .error .sigDer := by
  have hlow : ∀ e, (if hasFlag flags scriptVerifyLowS then isLowDERSignature sig else .ok ()) =
      Except.error e → e = .sigHighS := by
    intro e
    cases hflag : hasFlag flags scriptVerifyLowS with
    | false => exact nofun
    | true =>
      have hvalid : isValidSignatureEncoding sig = true := by
        refine (isValidSignatureEncoding_iff_strictDER sig).2 (h.resolve_right fun hnone => ?_)
        rw [hasFlag_of_and_eq (by decide) hflag] at hnone
        cases hnone
      rw [if_pos rfl]
      rcases isLowDERSignature_of_valid hvalid with hok | herror
      · rw [hok]
        exact nofun
      · rw [herror]
        exact fun heq => (Except.error.inj heq).symm
  unfold checkRest
  cases hfirst : (if hasFlag flags scriptVerifyLowS then isLowDERSignature sig else .ok ()) with
  | error e =>
    rw [hlow e hfirst]
    exact nofun
  | ok u =>
    change (if _ then _ else _) ≠ _
    split <;> exact nofun

theorem checkSignatureEncoding_ok_iff : checkSignatureEncoding sig flags = .ok () ↔
    sig = [] ∨ ((hasFlag flags encodingFlags = true → StrictDER sig) ∧
      (hasFlag flags scriptVerifyLowS = true → isLowDERSignature sig = .ok ()) ∧
      (hasFlag flags scriptVerifyStrictEnc = true → isDefinedHashtypeSignature sig = true)) := by
  by_cases hne : sig = []
  · subst hne
    exact iff_of_true rfl (Or.inl rfl)
  · rw [or_iff_right hne, checkSignatureEncoding_eq hne, ← checkRest_ok_iff]
    by_cases hder : hasFlag flags encodingFlags = true ∧ ¬StrictDER sig
    · rw [if_pos hder]
      exact iff_of_false nofun fun h => hder.2 (h.1 hder.1)
    · rw [if_neg hder]
      refine (and_iff_right fun hflag => ?_).symm
      by_contra hnot
      exact hder ⟨hflag, hnot⟩

/-- The error of the encoding is that of the strings outside of the grammar. -/
theorem checkSignatureEncoding_sigDer_iff : checkSignatureEncoding sig flags = .error .sigDer ↔
    sig ≠ [] ∧ hasFlag flags encodingFlags = true ∧ ¬StrictDER sig := by
  by_cases hne : sig = []
  · subst hne
    exact iff_of_false nofun fun h => h.1 rfl
  · rw [and_iff_right hne, checkSignatureEncoding_eq hne]
    by_cases hder : hasFlag flags encodingFlags = true ∧ ¬StrictDER sig
    · rw [if_pos hder]
      exact iff_of_true rfl hder
    · rw [if_neg hder]
      refine iff_of_false (checkRest_ne_sigDer ?_) hder
      by_cases hflag : hasFlag flags encodingFlags = true
      · exact Or.inl (by_contra fun hnot => hder ⟨hflag, hnot⟩)
      · exact Or.inr (Bool.eq_false_iff.2 hflag)

end Checks

/-- A strict encoding with the hash type 0 is rejected for its hash type. -/
theorem undefined_hashtype_rejected :
    StrictDER [0x30, 6, 2, 1, 1, 2, 1, 1, 0] ∧
      checkSignatureEncoding [0x30, 6, 2, 1, 1, 2, 1, 1, 0] scriptVerifyStrictEnc =
        .error .sigHashType := by
  refine ⟨(isValidSignatureEncoding_iff_strictDER _).1 (by decide), ?_⟩
  rfl

/-- The check is the grammar, stays inside of the string, and gives the error of the encoding for
the strings outside of the grammar; the other errors concern the value of `S` and the hash
type. -/
theorem signature_encoding_exact :
    (∀ sig, readSignatureEncoding sig = some (isValidSignatureEncoding sig) ∧
      (isValidSignatureEncoding sig = true ↔ StrictDER sig) ∧
      readLowDERSignature sig = some (isLowDERSignature sig)) ∧
    ∀ sig flags,
      (checkSignatureEncoding sig flags = .error .sigDer ↔
        sig ≠ [] ∧ hasFlag flags encodingFlags = true ∧ ¬StrictDER sig) ∧
      (checkSignatureEncoding sig flags = .ok () ↔
        sig = [] ∨ ((hasFlag flags encodingFlags = true → StrictDER sig) ∧
          (hasFlag flags scriptVerifyLowS = true → isLowDERSignature sig = .ok ()) ∧
          (hasFlag flags scriptVerifyStrictEnc = true →
            isDefinedHashtypeSignature sig = true))) :=
  ⟨fun sig => ⟨readSignatureEncoding_eq sig, isValidSignatureEncoding_iff_strictDER sig,
      readLowDERSignature_eq sig⟩,
    fun _ _ => ⟨checkSignatureEncoding_sigDer_iff, checkSignatureEncoding_ok_iff⟩⟩

end Scrypta.Interpreter
