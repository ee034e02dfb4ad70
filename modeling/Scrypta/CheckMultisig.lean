import Scrypta.SigOpBound
import Scrypta.Toolkit.Matching

/-! What `OP_CHECKMULTISIG` leaves. Of the signatures and the keys on the stack the loop takes the
last ones first and gives each signature the first key that fits. -/

namespace Scrypta.Interpreter

open Script Outcome

section Positions

variable {stack : List Bytes}

theorem stacktop_append (l : List Bytes) (b : Bytes) (r : List Bytes) :
    stacktop (l ++ b :: r) (l.length + 1) = .ok b := by
  have hget : (l ++ b :: r)[l.length]? = some b := by
    rw [List.getElem?_append_right (Nat.le_refl _), Nat.sub_self, List.getElem?_cons_zero]
  simp only [stacktop, hget]

/-- These elements stand from the position on. -/
def StandsAt (stack : List Bytes) (i : ℕ) (l : List Bytes) : Prop :=
  ∀ j (h : j < l.length), stacktop stack (i + j) = .ok l[j]

theorem standsAt_append (l m r : List Bytes) : StandsAt (l ++ (m ++ r)) (l.length + 1) m := by
  intro j h
  have hget : (l ++ (m ++ r))[l.length + j]? = some m[j] := by
    rw [List.getElem?_append_right (Nat.le_add_right _ _), Nat.add_sub_cancel_left,
      List.getElem?_append_left h, List.getElem?_eq_getElem h]
  have hpos : l.length + 1 + j = l.length + j + 1 := by omega
  rw [hpos]
  simp only [stacktop, hget]

theorem StandsAt.head {i : ℕ} {a : Bytes} {l : List Bytes} (h : StandsAt stack i (a :: l)) :
    stacktop stack i = .ok a := h 0 (Nat.succ_pos _)

theorem StandsAt.tail {i : ℕ} {a : Bytes} {l : List Bytes} (h : StandsAt stack i (a :: l)) :
    StandsAt stack (i + 1) l := by
  intro j hj
  have hnext := h (j + 1) (Nat.succ_lt_succ hj)
  rw [List.getElem_cons_succ] at hnext
  rw [Nat.add_assoc, Nat.add_comm 1 j]
  exact hnext

end Positions

section Multisig

variable {ctx : Context} {code : CScript} {stack : List Bytes} {s : State}

/-- The script code without the signatures. -/
theorem dropSignatures_eq {sigs : List Bytes} {isig : ℕ} (hsigs : StandsAt stack isig sigs)
    (code : CScript) :
    dropSignatures stack sigs.length isig code = .ok (sigs.foldl dropSignature code) := by
  induction sigs generalizing isig code with
  | nil => rfl
  | cons vchSig sigs ih =>
    rw [List.length_cons, dropSignatures, hsigs.head]
    exact ih hsigs.tail (dropSignature code vchSig)

variable (code) in
/-- The loop over keys and signatures gives each signature the first key left that fits. -/
theorem matchSignatures_eq {sigs keys : List Bytes} {isig ikey : ℕ}
    (hkeys : StandsAt stack ikey keys) (hsigs : StandsAt stack isig sigs)
    (henc : ∀ vchSig ∈ sigs, ∀ vchPubKey ∈ keys, checkEncodings ctx vchSig vchPubKey = .ok ()) :
    (matchSignatures ctx stack code keys.length sigs.length isig ikey).2 =
      .ok (Matching.greedy (fun vchSig vchPubKey => ctx.checkSig vchSig vchPubKey code)
        sigs keys) := by
  induction keys generalizing sigs isig ikey with
  | nil =>
    unfold matchSignatures
    cases sigs with
    | nil => rfl
    | cons vchSig sigs => rw [if_neg (by rw [List.length_cons]; omega)]; rfl
  | cons vchPubKey keys ih =>
    cases sigs with
    | nil =>
      unfold matchSignatures
      rw [if_pos List.length_nil]
      rfl
    | cons vchSig sigs =>
      have hread : readSigAndKey ctx stack isig ikey = .ok (vchSig, vchPubKey) := by
        unfold readSigAndKey
        rw [hsigs.head, hkeys.head]
        change (checkEncodings ctx vchSig vchPubKey).bind (fun _ => .ok (vchSig, vchPubKey)) = _
        rw [henc vchSig List.mem_cons_self vchPubKey List.mem_cons_self]
        rfl
      have hencKeys : ∀ v ∈ vchSig :: sigs, ∀ k ∈ keys, checkEncodings ctx v k = .ok () :=
        fun v hv k hk => henc v hv k (List.mem_cons_of_mem _ hk)
      unfold matchSignatures
      rw [if_neg (by rw [List.length_cons]; omega)]
      dsimp only [List.length_cons]
      by_cases hmore : keys.length + 1 < sigs.length + 1
      · rw [if_pos hmore,
          Matching.greedy_of_length_lt (l := vchSig :: sigs) (m := vchPubKey :: keys) hmore]
      · rw [if_neg hmore, hread, Matching.greedy]
        dsimp only [Counted.after]
        by_cases hgood : ctx.checkSig vchSig vchPubKey code = true
        · rw [if_pos hgood, if_pos hgood]
          exact ih hkeys.tail hsigs.tail fun v hv => hencKeys v (List.mem_cons_of_mem _ hv)
        · rw [if_neg hgood, if_neg hgood]
          exact ih hkeys.tail hsigs hencKeys

theorem needsInt_ok {i : ℕ} (h : i ≤ stack.length) (hmax : stack.length < 2 ^ 31) :
    needsInt i stack = .ok () := by
  have hlen : toInt32 stack.length = stack.length := toInt32_eq_self (by omega) (by omega)
  unfold needsInt
  rw [hlen, if_neg (by omega)]

/-- The operands of a multisig check on a stack: the number of keys on the top, the keys, the number
of signatures, the signatures and the element that is consumed without being looked at. -/
structure Operands where
  nKeysCount : Bytes
  keys : List Bytes
  nSigsCount : Bytes
  sigs : List Bytes
  dummy : Bytes

/-- The stack with the operands on it; keys and signatures are pushed in their order. -/
def Operands.onto (o : Operands) (stack : List Bytes) : List Bytes :=
  o.nKeysCount :: (o.keys.reverse ++ o.nSigsCount :: (o.sigs.reverse ++ o.dummy :: stack))

/-- The numbers say how many keys and signatures there are. -/
structure Operands.Counted (fRequireMinimal : Bool) (o : Operands) : Prop where
  keys : CScriptNum.ofVch fRequireMinimal o.nKeysCount = .ok (o.keys.length : ℤ)
  sigs : CScriptNum.ofVch fRequireMinimal o.nSigsCount = .ok (o.sigs.length : ℤ)
  sigs_le : o.sigs.length ≤ o.keys.length
  keys_le : o.keys.length ≤ 20

variable {o : Operands}

theorem Operands.length_onto (o : Operands) (stack : List Bytes) :
    (o.onto stack).length = o.keys.length + o.sigs.length + 3 + stack.length := by
  unfold onto
  simp only [List.length_cons, List.length_append, List.length_reverse]
  omega

theorem Operands.drop_onto (o : Operands) (stack : List Bytes) :
    (o.onto stack).drop (o.keys.length + o.sigs.length + 3) = stack := by
  have hsplit : o.onto stack = (o.nKeysCount :: (o.keys.reverse ++ o.nSigsCount ::
      (o.sigs.reverse ++ [o.dummy]))) ++ stack := by
    simp only [onto, List.cons_append, List.append_assoc, List.nil_append]
  rw [hsplit]
  refine List.drop_left' ?_
  simp only [List.length_cons, List.length_append, List.length_reverse, List.length_nil]
  omega

theorem Operands.standsAt_keys (o : Operands) (stack : List Bytes) :
    StandsAt (o.onto stack) 2 o.keys.reverse :=
  standsAt_append [o.nKeysCount] o.keys.reverse _

theorem Operands.stacktop_nSigsCount (o : Operands) (stack : List Bytes) :
    stacktop (o.onto stack) (2 + o.keys.length) = .ok o.nSigsCount := by
  have hat := stacktop_append (o.nKeysCount :: o.keys.reverse) o.nSigsCount
    (o.sigs.reverse ++ o.dummy :: stack)
  rw [List.length_cons, List.length_reverse] at hat
  rw [Nat.add_comm 2]
  exact hat

theorem Operands.standsAt_sigs (o : Operands) (stack : List Bytes) :
    StandsAt (o.onto stack) (o.keys.length + 3) o.sigs.reverse := by
  have hat := standsAt_append (o.nKeysCount :: (o.keys.reverse ++ [o.nSigsCount]))
    o.sigs.reverse (o.dummy :: stack)
  simp only [List.length_cons, List.length_append, List.length_reverse, List.length_nil,
    List.cons_append, List.append_assoc, List.nil_append] at hat
  exact hat

theorem getInt_count {k : ℕ} (h : k ≤ 20) : CScriptNum.getInt (k : ℤ) = k := by
  have hmax : CScriptNum.intMax = 2147483647 := rfl
  have hmin : CScriptNum.intMin = -2147483648 := rfl
  unfold CScriptNum.getInt
  rw [if_neg (by omega), if_neg (by omega)]

theorem multisigArgs_eq (hstack : s.stack = o.onto stack)
    (hcounted : o.Counted ctx.fRequireMinimal) (hsize : s.stack.length < 2 ^ 31) :
    multisigArgs ctx s =
      if 201 < s.nOpCount + o.keys.length then .error (.error .opCount)
      else .ok ⟨s.nOpCount + o.keys.length, o.keys.length, 2, o.sigs.length, o.keys.length + 3,
        o.keys.length + 3 + o.sigs.length⟩ := by
  have hlen := o.length_onto stack
  have hle := hcounted.sigs_le
  have htwenty := hcounted.keys_le
  rw [hstack] at hsize
  unfold multisigArgs
  rw [hstack]
  change (needsInt 1 (o.onto stack)).bind _ = _
  rw [needsInt_ok (by omega) hsize]
  change (CScriptNum.ofVch ctx.fRequireMinimal o.nKeysCount).bind _ = _
  rw [hcounted.keys]
  change (if CScriptNum.getInt (o.keys.length : ℤ) < 0 ∨ _ then _ else _) = _
  rw [getInt_count htwenty, if_neg (by omega), Int.toNat_natCast]
  change (if 201 < s.nOpCount + o.keys.length then _ else _) = _
  by_cases hops : 201 < s.nOpCount + o.keys.length
  · rw [if_pos hops, if_pos hops]
  rw [if_neg hops, if_neg hops]
  change (needsInt (2 + o.keys.length) (o.onto stack)).bind _ = _
  rw [needsInt_ok (by omega) hsize]
  change (stacktop (o.onto stack) (2 + o.keys.length)).bind _ = _
  rw [o.stacktop_nSigsCount]
  change (CScriptNum.ofVch ctx.fRequireMinimal o.nSigsCount).bind _ = _
  rw [hcounted.sigs]
  change (if CScriptNum.getInt (o.sigs.length : ℤ) < 0 ∨ _ then _ else _) = _
  rw [getInt_count (by omega), if_neg (by omega), Int.toNat_natCast]
  change (needsInt (2 + o.keys.length + 1 + o.sigs.length) (o.onto stack)).bind _ = _
  rw [needsInt_ok (by omega) hsize]
  have hisig : 2 + o.keys.length + 1 = o.keys.length + 3 := by omega
  rw [hisig]
  rfl

theorem popArgs_eq (o : Operands) (stack : List Bytes)
    (hdummy : ¬(hasFlag ctx.flags scriptVerifyNullDummy ∧ o.dummy.length ≠ 0)) :
    popArgs ctx (o.keys.length + 3 + o.sigs.length) (o.onto stack) = .ok stack := by
  have hdrop : popMany (o.keys.length + 3 + o.sigs.length - 1) (o.onto stack) =
      .ok (o.dummy :: stack) := by
    have hsplit : o.onto stack =
        (o.nKeysCount :: (o.keys.reverse ++ o.nSigsCount :: o.sigs.reverse)) ++
          o.dummy :: stack := by
      simp only [Operands.onto, List.cons_append, List.append_assoc]
    have hlen : o.keys.length + 3 + o.sigs.length - 1 =
        (o.nKeysCount :: (o.keys.reverse ++ o.nSigsCount :: o.sigs.reverse)).length := by
      simp only [List.length_cons, List.length_append, List.length_reverse]
      omega
    rw [hsplit, hlen, popMany_ok (by rw [List.length_append]; omega), List.drop_left]
  unfold popArgs
  rw [hdrop]
  change (if hasFlag ctx.flags scriptVerifyNullDummy ∧ o.dummy.length ≠ 0 then _ else _) = _
  rw [if_neg hdummy]
  rfl

/-- The verdict of the loop on the operands. -/
def Operands.verdict (o : Operands) (ctx : Context) (code : CScript) : Bool :=
  Matching.greedy
    (fun vchSig vchPubKey =>
      ctx.checkSig vchSig vchPubKey (o.sigs.reverse.foldl dropSignature code))
    o.sigs.reverse o.keys.reverse

variable (o stack) in
theorem opCheckMultisigs_eq (thenVerify : Bool) (hstack : s.stack = o.onto stack)
    (hcounted : o.Counted ctx.fRequireMinimal) (hsize : s.stack.length < 2 ^ 31)
    (henc : ∀ vchSig ∈ o.sigs, ∀ vchPubKey ∈ o.keys,
      checkEncodings ctx vchSig vchPubKey = .ok ())
    (hdummy : ¬(hasFlag ctx.flags scriptVerifyNullDummy ∧ o.dummy.length ≠ 0))
    (hops : s.nOpCount + o.keys.length ≤ 201) :
    (opCheckMultisigs ctx thenVerify s).2 =
      (pushVerdict thenVerify .checkMultiSigVerify (o.verdict ctx s.pbegincodehash) stack).map
        fun stack => { s with stack := stack, nOpCount := s.nOpCount + o.keys.length } := by
  have hdrop := dropSignatures_eq (o.standsAt_sigs stack) s.pbegincodehash
  rw [List.length_reverse] at hdrop
  have hargs : multisigScriptCode ctx s = .ok (⟨s.nOpCount + o.keys.length, o.keys.length, 2,
      o.sigs.length, o.keys.length + 3, o.keys.length + 3 + o.sigs.length⟩,
      o.sigs.reverse.foldl dropSignature s.pbegincodehash) := by
    unfold multisigScriptCode
    rw [multisigArgs_eq hstack hcounted hsize, if_neg (by omega), hstack]
    change (dropSignatures (o.onto stack) o.sigs.length (o.keys.length + 3)
      s.pbegincodehash).bind _ = _
    rw [hdrop]
    rfl
  have hmatch := matchSignatures_eq (o.sigs.reverse.foldl dropSignature s.pbegincodehash)
    (o.standsAt_keys stack) (o.standsAt_sigs stack) fun v hv k hk =>
      henc v (List.mem_reverse.1 hv) k (List.mem_reverse.1 hk)
  rw [List.length_reverse, List.length_reverse] at hmatch
  rw [opCheckMultisigs, hargs, hstack]
  dsimp only [Counted.after]
  change ((matchSignatures ctx (o.onto stack) _ o.keys.length o.sigs.length
    (o.keys.length + 3) 2).2).bind _ = _
  rw [hmatch]
  change (popArgs ctx (o.keys.length + 3 + o.sigs.length) (o.onto stack)).bind _ = _
  rw [popArgs_eq o stack hdummy]
  rfl

theorem execute_checkMultiSig (s : State) :
    execute ctx true opCheckMultiSig s =
      opCheckMultisigs ctx (decide (opCheckMultiSig = opCheckMultiSigVerify)) s := by
  unfold execute
  rw [if_neg (by decide), if_neg (by decide), if_neg (by decide), if_neg (by decide),
    if_neg (by decide), if_neg (by decide), if_neg (by decide), if_neg (by decide),
    if_neg (by decide), if_neg (by decide), if_neg (by decide), if_pos (Or.inl rfl)]

end Multisig

section Encodings

variable {ctx : Context} {flags : BitVec 32}

theorem hasFlag_or (flags a b : BitVec 32) :
    hasFlag flags (a ||| b) = (hasFlag flags a || hasFlag flags b) := by
  unfold hasFlag
  rw [BitVec.and_or_distrib_left, Bool.eq_iff_iff]
  have hzero : flags &&& a ||| flags &&& b = 0 ↔ flags &&& a = 0 ∧ flags &&& b = 0 :=
    BitVec.or_eq_zero_iff
  simp only [bne_iff_ne, Bool.or_eq_true, ne_eq, hzero]
  tauto

/-- No flag that looks at how an operand is written. -/
structure NoEncodingFlags (flags : BitVec 32) : Prop where
  strictEnc : hasFlag flags scriptVerifyStrictEnc = false
  derSig : hasFlag flags scriptVerifyDerSig = false
  lowS : hasFlag flags scriptVerifyLowS = false
  nullDummy : hasFlag flags scriptVerifyNullDummy = false
  minimalData : hasFlag flags scriptVerifyMinimalData = false

theorem NoEncodingFlags.checkSignatureEncoding (h : NoEncodingFlags flags) (vchSig : Bytes) :
    Interpreter.checkSignatureEncoding vchSig flags = .ok () := by
  unfold Interpreter.checkSignatureEncoding
  rw [hasFlag_or, hasFlag_or, h.derSig, h.lowS, h.strictEnc]
  split
  · rfl
  · rw [if_neg nofun]
    rfl

theorem NoEncodingFlags.checkPubKeyEncoding (h : NoEncodingFlags flags) (vchPubKey : Bytes) :
    Interpreter.checkPubKeyEncoding vchPubKey flags = .ok () := by
  unfold Interpreter.checkPubKeyEncoding
  rw [h.strictEnc, if_neg nofun]

theorem NoEncodingFlags.checkEncodings (h : NoEncodingFlags ctx.flags)
    (vchSig vchPubKey : Bytes) : checkEncodings ctx vchSig vchPubKey = .ok () := by
  unfold Interpreter.checkEncodings
  rw [h.checkSignatureEncoding vchSig]
  dsimp only
  rw [h.checkPubKeyEncoding vchPubKey]

/-- The signatures have keys of their own in the order of the keys. -/
def Operands.Matches (o : Operands) (ctx : Context) (code : CScript) : Prop :=
  ∃ f : Fin o.sigs.length → Fin o.keys.length, StrictMono f ∧
    ∀ i, ctx.checkSig (o.sigs.get i) (o.keys.get (f i)) code = true

theorem Operands.verdict_iff (o : Operands) (ctx : Context) (code : CScript) :
    o.verdict ctx code = true ↔ o.Matches ctx (o.sigs.reverse.foldl dropSignature code) := by
  unfold verdict Matches
  rw [Matching.greedy_iff, Matching.reverse_iff, Matching.iff_exists_strictMono]

/-- The check ends with one element for its `n + m + 3` operands, which is true exactly when there
is a match, unless the count of operations is exceeded. -/
theorem checkMultiSig_matches (ctx : Context) (s : State) (o : Operands) (stack : List Bytes)
    (hflags : NoEncodingFlags ctx.flags) (hstack : s.stack = o.onto stack)
    (hcounted : o.Counted false) (hsize : s.stack.length < 2 ^ 31) :
    (201 < s.nOpCount + o.keys.length ∧
      (execute ctx true opCheckMultiSig s).2 = .error (.error .opCount)) ∨
    (s.nOpCount + o.keys.length ≤ 201 ∧ ∃ fSuccess,
      (execute ctx true opCheckMultiSig s).2 = .ok { s with
        stack := ofBool fSuccess :: s.stack.drop (o.keys.length + o.sigs.length + 3)
        nOpCount := s.nOpCount + o.keys.length } ∧
      (fSuccess = true ↔
        o.Matches ctx (o.sigs.reverse.foldl dropSignature s.pbegincodehash))) := by
  have hminimal : ctx.fRequireMinimal = false := hflags.minimalData
  rw [execute_checkMultiSig]
  by_cases hops : 201 < s.nOpCount + o.keys.length
  · refine Or.inl ⟨hops, ?_⟩
    have hargs : multisigScriptCode ctx s = .error (.error .opCount) := by
      unfold multisigScriptCode
      rw [multisigArgs_eq hstack (hminimal ▸ hcounted) hsize, if_pos hops]
      rfl
    rw [opCheckMultisigs, hargs]
    rfl
  · have hdummy : ¬(hasFlag ctx.flags scriptVerifyNullDummy ∧ o.dummy.length ≠ 0) := by
      rw [hflags.nullDummy]
      exact fun hand => nomatch hand.1
    have hdrop : s.stack.drop (o.keys.length + o.sigs.length + 3) = stack := by
      rw [hstack, o.drop_onto]
    refine Or.inr ⟨not_lt.1 hops, o.verdict ctx s.pbegincodehash, ?_, o.verdict_iff ctx _⟩
    rw [opCheckMultisigs_eq stack o _ hstack (hminimal ▸ hcounted) hsize
      (fun v _ k _ => hflags.checkEncodings v k) hdummy (not_lt.1 hops), hdrop]
    rfl

/-- Two keys of three sign, in the order of the keys, on a stack with one element below. -/
def sampleOperands : Operands := ⟨[3], [[1], [2], [3]], [2], [[1], [3]], []⟩

/-- A checker that accepts the signature that equals the key. No hash is asked for. -/
def equalKeys : Context where
  hashes :=
    { ripemd160 := fun _ => List.replicate 20 0
      sha1 := fun _ => List.replicate 20 0
      sha256 := fun _ => List.replicate 32 0
      hash160 := fun _ => List.replicate 20 0
      hash256 := fun _ => List.replicate 32 0
      length_ripemd160 := fun _ => rfl
      length_sha1 := fun _ => rfl
      length_sha256 := fun _ => rfl
      length_hash160 := fun _ => rfl
      length_hash256 := fun _ => rfl }
  checkSig vchSig vchPubKey _ := vchSig == vchPubKey
  flags := 0

theorem checkMultiSig_sample :
    ∃ fSuccess, (execute equalKeys true opCheckMultiSig
        { pc := [], pbegincodehash := [], stack := sampleOperands.onto [[7]] }).2 =
          .ok { pc := [], pbegincodehash := [], stack := [ofBool fSuccess, [7]], nOpCount := 3 } ∧
      (fSuccess = true ↔ sampleOperands.Matches equalKeys []) := by
  rcases checkMultiSig_matches equalKeys
      { pc := [], pbegincodehash := [], stack := sampleOperands.onto [[7]] } sampleOperands [[7]]
      ⟨rfl, rfl, rfl, rfl, rfl⟩ rfl ⟨rfl, rfl, by decide, by decide⟩ (by decide) with
    ⟨hmore, -⟩ | ⟨-, h⟩
  · exact absurd hmore (by decide)
  · exact h

end Encodings

end Scrypta.Interpreter
