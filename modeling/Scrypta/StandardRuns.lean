import Mathlib.Data.List.Forall2
import Scrypta.CheckMultisig
import Scrypta.StandardScripts

/-! What the interpreter leaves when it runs the standard scripts on the stacks that they are made
for. -/

namespace Scrypta.Interpreter

open Script Outcome

variable {ctx : Context} {s s' : State}

/-! One turn. -/

theorem evalLoop_of_reaches (h : Reaches ctx s s') (hpc : s'.pc = []) {turns : ℕ}
    (hturns : s.pc.length ≤ turns) : (evalLoop ctx turns s).2 = .ok s' := by
  induction h using Relation.ReflTransGen.head_induction_on generalizing turns with
  | refl => cases turns <;> rw [evalLoop, if_pos hpc]
  | head hturn _ ih =>
    have hlt := hturn.steps.pc
    cases turns with
    | zero => omega
    | succ turns =>
      rw [evalLoop, if_neg hturn.1]
      rename_i s₀ s₁ _
      cases hstep : step ctx s₀ with
      | mk calls r =>
        have hok := hturn.2
        rw [hstep] at hok
        cases r with
        | error stop => cases hok
        | ok s₂ =>
          cases Except.ok.inj hok
          exact ih (by omega)

theorem evalScript_of_reaches {stack : List Bytes} {script : CScript}
    (hsize : script.length ≤ 10000) (h : Reaches ctx (State.start stack script) s')
    (hpc : s'.pc = []) (hexec : s'.vfExec = []) :
    (evalScript ctx stack script).2 = .ok s'.stack := by
  have hloop : (evalLoop ctx script.length (State.start stack script)).2 = .ok s' :=
    evalLoop_of_reaches h hpc (Nat.le_refl _)
  unfold evalScript
  rw [if_neg (by omega)]
  generalize evalLoop ctx script.length (State.start stack script) = run at hloop
  obtain ⟨calls, r⟩ := run
  subst hloop
  change (if s'.vfExec ≠ [] then _ else _) = _
  rw [if_neg (not_not.2 hexec)]

theorem readInstruction_ok {opcode : UInt8} {data rest : Bytes}
    (hget : getOp2 s.pc = ⟨true, opcode, data, rest⟩)
    (hsize : data.length ≤ maxScriptElementSize) (hops : s.nOpCount ≤ 200)
    (hable : opcode ∉ disabledOpcodes) :
    readInstruction s = .ok (opcode, data, { s with
      pc := rest, nOpCount := if op16 < opcode then s.nOpCount + 1 else s.nOpCount }) := by
  have hcount : ¬(op16 < opcode ∧ 201 < if op16 < opcode then s.nOpCount + 1 else s.nOpCount) := by
    split <;> omega
  unfold readInstruction
  rw [hget]
  dsimp only
  rw [if_neg (by decide), if_neg (Nat.not_lt.2 hsize), if_neg hcount, if_neg hable]

theorem turn_of_perform {opcode : UInt8} {data rest : Bytes}
    (hget : getOp2 s.pc = ⟨true, opcode, data, rest⟩)
    (hsize : data.length ≤ maxScriptElementSize) (hops : s.nOpCount ≤ 200)
    (hable : opcode ∉ disabledOpcodes)
    (hperform : (perform ctx opcode data { s with
      pc := rest, nOpCount := if op16 < opcode then s.nOpCount + 1 else s.nOpCount }).2 = .ok s')
    (hstack : s'.stack.length + s'.altstack.length ≤ 1000) : Turn ctx s s' := by
  refine ⟨ne_nil_of_getOp2_ok (by rw [hget]), ?_⟩
  unfold step
  rw [readInstruction_ok hget hsize hops hable]
  change (perform ctx _ _ _).2.bind sizeLimit = _
  rw [hperform]
  exact if_neg (Nat.not_lt.2 hstack)

/-- An opcode behind the pushes is executed where there is no condition. -/
theorem perform_of_lt {opcode : UInt8} {data : Bytes} (hexec : s.fExec = true)
    (h : opPushData4 < opcode) : perform ctx opcode data s = execute ctx true opcode s := by
  unfold perform
  rw [if_neg (fun hand => UInt8.not_le.2 h hand.2), if_pos (Or.inl hexec), hexec]

set_option maxRecDepth 2000 in
theorem able_of_le {opcode : UInt8} (h : opcode ≤ op16) : opcode ∉ disabledOpcodes := by
  have hall : ∀ n : Fin 256, UInt8.ofFin n ≤ op16 → UInt8.ofFin n ∉ disabledOpcodes := by
    decide
  exact hall opcode.toFin h

/-- A state of a run without conditions. -/
def running (code pc : CScript) (stack : List Bytes) (nOpCount : ℕ) : State :=
  { pc := pc, pbegincodehash := code, stack := stack, nOpCount := nOpCount }

section Opcodes

variable {code rest : CScript} {stack : List Bytes} {n : ℕ}

variable (ctx code stack n) in
/-- A push puts its data on the stack. -/
theorem turn_read {pc : CScript} (hok : (getOp2 pc).ok = true)
    (hle : (getOp2 pc).opcode ≤ opPushData4)
    (hmin : ctx.fRequireMinimal = true →
      checkMinimalPush (getOp2 pc).data (getOp2 pc).opcode = true)
    (hsize : (getOp2 pc).data.length ≤ maxScriptElementSize) (hops : n ≤ 200)
    (hstack : stack.length < 1000) :
    Turn ctx (running code pc stack n)
      (running code (getOp2 pc).pc ((getOp2 pc).data :: stack) n) := by
  have hsmall : (getOp2 pc).opcode ≤ op16 := by
    rw [UInt8.le_iff_toNat_le] at hle ⊢
    exact hle.trans (by decide)
  have hget : getOp2 pc = ⟨true, (getOp2 pc).opcode, (getOp2 pc).data, (getOp2 pc).pc⟩ := by
    rw [← hok]
  refine turn_of_perform hget hsize hops (able_of_le hsmall) ?_ hstack
  rw [if_neg (UInt8.not_lt.2 hsmall)]
  unfold perform
  rw [if_pos ⟨rfl, hle⟩, if_neg]
  · rfl
  · rintro ⟨hflag, hlong⟩
    rw [hmin hflag] at hlong
    cases hlong

variable (ctx code rest stack n) in
theorem turn_push (b : Bytes) (hne : b.length ≠ 1) (hsize : b.length ≤ maxScriptElementSize)
    (hrest : rest.length ≤ 10000) (hops : n ≤ 200) (hstack : stack.length < 1000) :
    Turn ctx (running code (ScriptNum.pushData b ++ rest) stack n)
      (running code rest (b :: stack) n) := by
  have hmax : maxScriptElementSize = 520 := rfl
  have hshort : b.length ≤ 0xffff := by omega
  have hget := getOp2_pushData (show b.length + rest.length < 2 ^ 32 by omega)
  have hok : (getOp2 (ScriptNum.pushData b ++ rest)).ok = true := by rw [hget]
  have hturn := turn_read ctx code stack n hok (by rw [hget]; exact pushOpcode_le b)
    (fun _ => by rw [hget]; exact checkMinimalPush_pushOpcode hne hshort)
    (by rw [hget]; exact hsize) hops hstack
  rw [hget] at hturn
  exact hturn

theorem toNat_opN {k : ℕ} (h : 1 ≤ k ∧ k ≤ 16) : (opN k).toNat = k + 80 :=
  toNat_ofNat_of_lt (by omega)

theorem opN_small {k : ℕ} (h : 1 ≤ k ∧ k ≤ 16) : op1 ≤ opN k ∧ opN k ≤ op16 := by
  have h1 : op1.toNat = 81 := rfl
  have h16 : op16.toNat = 96 := rfl
  rw [UInt8.le_iff_toNat_le, UInt8.le_iff_toNat_le, toNat_opN h]
  omega

theorem pushedNumber_opN {k : ℕ} (h : 1 ≤ k ∧ k ≤ 16) : pushedNumber (opN k) = k := by
  have h1 : op1.toNat = 81 := rfl
  rw [pushedNumber, toNat_opN h]
  omega

/-- The bytes that `OP_1` to `OP_16` push. -/
def numberOf (k : ℕ) : Bytes :=
  ScriptNum.serialize (((opN k).toNat : ℤ) - (op1.toNat - 1))

theorem ofVch_numberOf {k : ℕ} (h : 1 ≤ k ∧ k ≤ 16) (fRequireMinimal : Bool) :
    CScriptNum.ofVch fRequireMinimal (numberOf k) = .ok (k : ℤ) := by
  have hnumber := ofVch_pushedNumber (opN_small h) fRequireMinimal
  rw [pushedNumber_opN h] at hnumber
  exact hnumber

variable (ctx code rest stack n) in
theorem turn_opN {k : ℕ} (h : 1 ≤ k ∧ k ≤ 16) (hops : n ≤ 200) (hstack : stack.length < 1000) :
    Turn ctx (running code (opN k :: rest) stack n)
      (running code rest (numberOf k :: stack) n) := by
  have hsmall := opN_small h
  refine turn_of_perform (getOp2_of_lt (lt_of_small hsmall) rest) (Nat.zero_le _) hops
    (able_of_le hsmall.2) ?_ hstack
  rw [if_neg (UInt8.not_lt.2 hsmall.2), perform_of_lt rfl (lt_of_small hsmall), execute,
    if_pos (Or.inr hsmall)]
  rfl

theorem turn_opcode {opcode : UInt8} (hop : op16 < opcode) (hable : opcode ∉ disabledOpcodes)
    (hops : n ≤ 200) (hstack : s'.stack.length + s'.altstack.length ≤ 1000)
    (hexecute : (execute ctx true opcode (running code rest stack (n + 1))).2 = .ok s') :
    Turn ctx (running code (opcode :: rest) stack n) s' := by
  have hpush : opPushData4 < opcode := by
    rw [UInt8.lt_iff_toNat_lt] at hop ⊢
    exact lt_of_le_of_lt (by decide) hop
  refine turn_of_perform (getOp2_of_lt hpush rest) (Nat.zero_le _) hops hable ?_ hstack
  rw [if_pos hop, perform_of_lt rfl hpush]
  exact hexecute

end Opcodes

/-! Opcodes of the standard scripts. -/

section Scripts

variable {code rest : CScript} {stack : List Bytes} {n : ℕ}

theorem turn_stackOp {opcode : UInt8} {f : List Bytes → Exec (List Bytes)} {stack' : List Bytes}
    (hop : op16 < opcode) (hable : opcode ∉ disabledOpcodes)
    (hexecute : ∀ s, execute ctx true opcode s =
      (0, (f s.stack).map fun stack => { s with stack := stack }))
    (hf : f stack = .ok stack') (hops : n ≤ 200) (hstack : stack'.length ≤ 1000) :
    Turn ctx (running code (opcode :: rest) stack n) (running code rest stack' (n + 1)) := by
  refine turn_opcode hop hable hops hstack ?_
  rw [hexecute]
  change (f stack).map _ = _
  rw [hf]
  rfl

variable (ctx code rest stack n) in
theorem turn_dup (vch : Bytes) (hops : n ≤ 200) (hstack : stack.length < 999) :
    Turn ctx (running code (opDup :: rest) (vch :: stack) n)
      (running code rest (vch :: vch :: stack) (n + 1)) :=
  turn_stackOp (f := dup) (by decide) (by decide) (fun _ => rfl) rfl hops
    (by simp only [List.length_cons]; omega)

variable (ctx code rest stack n) in
theorem turn_hash160 (vch : Bytes) (hops : n ≤ 200) (hstack : stack.length < 1000) :
    Turn ctx (running code (opHash160 :: rest) (vch :: stack) n)
      (running code rest (ctx.hashes.hash160 vch :: stack) (n + 1)) :=
  turn_stackOp (f := hashTop ctx.hashes.hash160) (by decide) (by decide) (fun _ => rfl) rfl hops
    hstack

variable (ctx code rest stack n) in
theorem turn_equalVerify (vch : Bytes) (hops : n ≤ 200) (hstack : stack.length ≤ 1000) :
    Turn ctx (running code (opEqualVerify :: rest) (vch :: vch :: stack) n)
      (running code rest stack (n + 1)) := by
  have hequal : equal true (vch :: vch :: stack) = .ok stack := by
    change verified .equalVerify (decide (vch = vch)) _ = _
    rw [decide_eq_true rfl]
    rfl
  exact turn_stackOp (f := equal true) (by decide) (by decide) (fun _ => rfl) hequal hops hstack

variable (ctx code rest stack n) in
theorem turn_equal (vch : Bytes) (hops : n ≤ 200) (hstack : stack.length < 1000) :
    Turn ctx (running code (opEqual :: rest) (vch :: vch :: stack) n)
      (running code rest (vchTrue :: stack) (n + 1)) := by
  have hequal : equal false (vch :: vch :: stack) = .ok (vchTrue :: stack) := by
    change Except.ok (ofBool (decide (vch = vch)) :: stack) = _
    rw [decide_eq_true rfl]
    rfl
  exact turn_stackOp (f := equal false) (by decide) (by decide) (fun _ => rfl) hequal hops hstack

/-- A signature that is good for the code of the script without copies of it. -/
structure Signs (ctx : Context) (code : CScript) (vchSig vchPubKey : Bytes) : Prop where
  encodings : checkEncodings ctx vchSig vchPubKey = .ok ()
  kept : dropSignature code vchSig = code
  good : ctx.checkSig vchSig vchPubKey code = true

theorem execute_checkSig (s : State) :
    execute ctx true opCheckSig s =
      (opCheckSigs ctx false s).map id fun r => r.map fun stack => { s with stack := stack } :=
  rfl

variable (rest stack n) in
theorem turn_checkSig {vchSig vchPubKey : Bytes} (h : Signs ctx code vchSig vchPubKey)
    (hops : n ≤ 200) (hstack : stack.length < 1000) :
    Turn ctx (running code (opCheckSig :: rest) (vchPubKey :: vchSig :: stack) n)
      (running code rest (vchTrue :: stack) (n + 1)) := by
  refine turn_opcode (by decide) (by decide) hops hstack ?_
  have hargs : checkSigArgs ctx (running code rest (vchPubKey :: vchSig :: stack) (n + 1)) =
      .ok (vchSig, vchPubKey, code) := by
    change (checkEncodings ctx vchSig vchPubKey).bind
      (fun _ => .ok (vchSig, vchPubKey, dropSignature code vchSig)) = _
    rw [h.encodings, h.kept]
    rfl
  have hop : opCheckSigs ctx false (running code rest (vchPubKey :: vchSig :: stack) (n + 1)) =
      (1, .ok (vchTrue :: stack)) := by
    rw [opCheckSigs, hargs]
    change (1, (Except.ok stack).bind (pushVerdict false .checkSigVerify
      (ctx.checkSig vchSig vchPubKey code))) = _
    rw [h.good]
    rfl
  rw [execute_checkSig, hop]
  rfl

variable (ctx code rest stack n) in
/-- Pushes leave their data on the stack, the last on top. -/
theorem reaches_pushes {bs : List Bytes}
    (hbs : ∀ b ∈ bs, b.length ≠ 1 ∧ b.length ≤ maxScriptElementSize)
    (hsize : (bs.flatMap ScriptNum.pushData ++ rest).length ≤ 10000) (hops : n ≤ 200)
    (hstack : bs.length + stack.length ≤ 1000) :
    Reaches ctx (running code (bs.flatMap ScriptNum.pushData ++ rest) stack n)
      (running code rest (bs.reverse ++ stack) n) := by
  induction bs generalizing stack with
  | nil => exact Relation.ReflTransGen.refl
  | cons b bs ih =>
    have hb := hbs b List.mem_cons_self
    rw [List.length_cons] at hstack
    rw [List.flatMap_cons, List.append_assoc, List.length_append] at hsize
    rw [List.flatMap_cons, List.append_assoc, List.reverse_cons, List.append_assoc]
    refine Relation.ReflTransGen.head
      (turn_push ctx code _ stack n b hb.1 hb.2 (by omega) hops (by omega)) ?_
    exact ih (b :: stack) (fun b' hb' => hbs b' (List.mem_cons_of_mem _ hb')) (by omega)
      (by rw [List.length_cons]; omega)

theorem evalScript_pushes (ctx : Context) (stack : List Bytes) {bs : List Bytes}
    (hbs : ∀ b ∈ bs, b.length ≠ 1 ∧ b.length ≤ maxScriptElementSize)
    (hstack : bs.length + stack.length ≤ 1000)
    (hsize : (bs.flatMap ScriptNum.pushData).length ≤ 10000) :
    (evalScript ctx stack (bs.flatMap ScriptNum.pushData)).2 = .ok (bs.reverse ++ stack) := by
  have hreach :=
    reaches_pushes ctx (bs.flatMap ScriptNum.pushData) [] stack 0 hbs
      (by rw [List.append_nil]; exact hsize) (by decide) hstack
  rw [List.append_nil] at hreach
  exact evalScript_of_reaches hsize hreach rfl rfl

theorem length_pushData_le {b : Bytes} (h : b.length ≤ 0xffff) :
    (ScriptNum.pushData b).length ≤ b.length + 3 := by
  unfold ScriptNum.pushData
  split
  · rw [List.length_cons]
    omega
  · split
    · rw [List.length_cons, List.length_cons]
      omega
    · rw [List.length_cons, List.length_cons, List.length_cons]

theorem length_flatMap_pushData_le {bs : List Bytes} {k : ℕ} (hk : k ≤ 0xffff)
    (h : ∀ b ∈ bs, b.length ≤ k) :
    (bs.flatMap ScriptNum.pushData).length ≤ bs.length * (k + 3) := by
  induction bs with
  | nil => exact Nat.zero_le _
  | cons b bs ih =>
    have hb := h b List.mem_cons_self
    have hlen := length_pushData_le (b := b) (by omega)
    have hrest := ih fun b' hb' => h b' (List.mem_cons_of_mem _ hb')
    rw [List.flatMap_cons, List.length_append, List.length_cons, Nat.succ_mul]
    omega

variable (stack) in
theorem evalScript_pubKey {vchSig key : Bytes} (hlo : 33 ≤ key.length) (hhi : key.length ≤ 65)
    (h : Signs ctx (payToPubKey key) vchSig key) (hstack : stack.length < 900) :
    (evalScript ctx (vchSig :: stack) (payToPubKey key)).2 = .ok (vchTrue :: stack) := by
  have hmax : maxScriptElementSize = 520 := rfl
  have hpush := turn_push ctx (payToPubKey key) [opCheckSig] (vchSig :: stack) 0 key (by omega)
    (by omega) (by decide) (by decide) (by rw [List.length_cons]; omega)
  have hcheck := turn_checkSig [] stack 0 h (by decide) (by omega)
  have hreach : Reaches ctx (State.start (vchSig :: stack) (payToPubKey key)) _ :=
    Relation.ReflTransGen.head hpush (Relation.ReflTransGen.single hcheck)
  have hlen := length_pushData_le (b := key) (by omega)
  refine evalScript_of_reaches ?_ hreach rfl rfl
  rw [payToPubKey, List.length_append, List.length_singleton]
  omega

variable (stack) in
theorem evalScript_pubKeyHash {vchSig key hash : Bytes} (hlen : hash.length = 20)
    (hhash : ctx.hashes.hash160 key = hash) (h : Signs ctx (payToPubKeyHash hash) vchSig key)
    (hstack : stack.length < 900) :
    (evalScript ctx (key :: vchSig :: stack) (payToPubKeyHash hash)).2 =
      .ok (vchTrue :: stack) := by
  have hmax : maxScriptElementSize = 520 := rfl
  have hdup := turn_dup ctx (payToPubKeyHash hash)
    (opHash160 :: (ScriptNum.pushData hash ++ [opEqualVerify, opCheckSig])) (vchSig :: stack) 0 key
    (by decide) (by rw [List.length_cons]; omega)
  have hhash160 := turn_hash160 ctx (payToPubKeyHash hash)
    (ScriptNum.pushData hash ++ [opEqualVerify, opCheckSig]) (key :: vchSig :: stack) 1 key
    (by decide) (by rw [List.length_cons, List.length_cons]; omega)
  rw [hhash] at hhash160
  have hpush := turn_push ctx (payToPubKeyHash hash) [opEqualVerify, opCheckSig]
    (hash :: key :: vchSig :: stack) 2 hash (by omega) (by omega) (by decide) (by decide)
    (by rw [List.length_cons, List.length_cons, List.length_cons]; omega)
  have hequal := turn_equalVerify ctx (payToPubKeyHash hash) [opCheckSig]
    (key :: vchSig :: stack) 2 hash (by decide)
    (by rw [List.length_cons, List.length_cons]; omega)
  have hcheck := turn_checkSig [] stack 3 h (by decide) (by omega)
  have hreach : Reaches ctx (State.start (key :: vchSig :: stack) (payToPubKeyHash hash)) _ :=
    ((((Relation.ReflTransGen.single hdup).tail hhash160).tail hpush).tail hequal).tail hcheck
  refine evalScript_of_reaches ?_ hreach rfl rfl
  have hsize := length_pushData_le (b := hash) (by omega)
  rw [payToPubKeyHash, List.length_cons, List.length_cons, List.length_append]
  simp only [List.length_cons, List.length_nil]
  omega

/-- The script of an output that pays to the hash of a script. -/
def payToScriptHash (hash : Bytes) : CScript :=
  opHash160 :: (ScriptNum.pushData hash ++ [opEqual])

/-- A script that pays to the hash of a script, byte by byte. -/
theorem eq_payToScriptHash {s : CScript} (h : isPayToScriptHash s = true) :
    s = payToScriptHash ((s.drop 2).take 20) ∧ ((s.drop 2).take 20).length = 20 := by
  obtain ⟨hash, hlen, rfl⟩ := isPayToScriptHash_iff.1 h
  have hdata : (([opHash160, 0x14] ++ hash ++ [opEqual]).drop 2).take 20 = hash :=
    List.take_left' hlen
  rw [hdata, payToScriptHash, ScriptNum.pushData, hlen]
  exact ⟨rfl, rfl⟩

variable (ctx stack) in
theorem evalScript_scriptHash {redeemScript hash : Bytes} (hlen : hash.length = 20)
    (hhash : ctx.hashes.hash160 redeemScript = hash) (hstack : stack.length < 900) :
    (evalScript ctx (redeemScript :: stack) (payToScriptHash hash)).2 =
      .ok (vchTrue :: stack) := by
  have hmax : maxScriptElementSize = 520 := rfl
  have hhash160 := turn_hash160 ctx (payToScriptHash hash) (ScriptNum.pushData hash ++ [opEqual])
    stack 0 redeemScript (by decide) (by omega)
  rw [hhash] at hhash160
  have hpush := turn_push ctx (payToScriptHash hash) [opEqual] (hash :: stack) 1 hash (by omega)
    (by omega) (by decide) (by decide) (by rw [List.length_cons]; omega)
  have hequal := turn_equal ctx (payToScriptHash hash) [] stack 1 hash (by decide) (by omega)
  have hreach : Reaches ctx (State.start (redeemScript :: stack) (payToScriptHash hash)) _ :=
    ((Relation.ReflTransGen.single hhash160).tail hpush).tail hequal
  refine evalScript_of_reaches ?_ hreach rfl rfl
  have hsize := length_pushData_le (b := hash) (by omega)
  rw [payToScriptHash, List.length_cons, List.length_append, List.length_singleton]
  omega

end Scripts

/-! Multisignatures. -/

section Multisig

variable {code rest : CScript} {stack : List Bytes} {n : ℕ}

theorem foldl_dropSignature_kept {sigs : List Bytes}
    (hkept : ∀ vchSig ∈ sigs, dropSignature code vchSig = code) :
    sigs.foldl dropSignature code = code := by
  induction sigs with
  | nil => rfl
  | cons vchSig sigs ih =>
    rw [List.foldl_cons, hkept vchSig List.mem_cons_self]
    exact ih fun v hv => hkept v (List.mem_cons_of_mem _ hv)

/-- Each signature has a key of its own, in the order of the keys. -/
abbrev InOrder (ctx : Context) (code : CScript) : List Bytes → List Bytes → Prop :=
  List.SublistForall₂ fun vchSig vchPubKey => ctx.checkSig vchSig vchPubKey code = true

/-- The stack that a multisig script prepares. -/
def multisigStack (sigs keys stack : List Bytes) : List Bytes :=
  numberOf keys.length :: (keys.reverse ++ numberOf sigs.length ::
    (sigs.reverse ++ [] :: stack))

/-- The operands on that stack. -/
def multisigOperands (sigs keys : List Bytes) : Operands :=
  ⟨numberOf keys.length, keys, numberOf sigs.length, sigs, []⟩

theorem multisigOperands_counted {sigs keys : List Bytes} (hsigs : 1 ≤ sigs.length)
    (hle : sigs.length ≤ keys.length) (hkeys : keys.length ≤ 16) :
    (multisigOperands sigs keys).Counted ctx.fRequireMinimal where
  keys := ofVch_numberOf ⟨by omega, hkeys⟩ _
  sigs := ofVch_numberOf ⟨hsigs, by omega⟩ _
  sigs_le := hle
  keys_le := le_trans hkeys (by decide)

/-- Signatures and keys in the order in which they are written. -/
structure SignsAll (ctx : Context) (code : CScript) (sigs keys : List Bytes) : Prop where
  encodings : ∀ vchSig ∈ sigs, ∀ vchPubKey ∈ keys, checkEncodings ctx vchSig vchPubKey = .ok ()
  kept : ∀ vchSig ∈ sigs, dropSignature code vchSig = code
  inOrder : InOrder ctx code sigs.reverse keys.reverse

theorem SignsAll.verdict {sigs keys : List Bytes} (h : SignsAll ctx code sigs keys) :
    (multisigOperands sigs keys).verdict ctx code = true := by
  have hkept : sigs.reverse.foldl dropSignature code = code :=
    foldl_dropSignature_kept fun v hv => h.kept v (List.mem_reverse.1 hv)
  refine Matching.greedy_iff.2 ?_
  change List.SublistForall₂ (fun vchSig vchPubKey =>
    ctx.checkSig vchSig vchPubKey (sigs.reverse.foldl dropSignature code) = true) _ _
  rw [hkept]
  exact h.inOrder

variable (code rest stack n) in
theorem turn_checkMultiSig {sigs keys : List Bytes}
    (henc : ∀ vchSig ∈ sigs, ∀ vchPubKey ∈ keys, checkEncodings ctx vchSig vchPubKey = .ok ())
    (hsigs : 1 ≤ sigs.length) (hle : sigs.length ≤ keys.length) (hkeys : keys.length ≤ 16)
    (hops : n ≤ 99) (hstack : stack.length < 900) :
    Turn ctx (running code (opCheckMultiSig :: rest) (multisigStack sigs keys stack) n)
      (running code rest (ofBool ((multisigOperands sigs keys).verdict ctx code) :: stack)
        (n + 1 + keys.length)) := by
  have hlen : (multisigStack sigs keys stack).length =
      keys.length + sigs.length + 3 + stack.length :=
    (multisigOperands sigs keys).length_onto stack
  refine turn_opcode (by decide) (by decide) (by omega) ?_ ?_
  · change (ofBool ((multisigOperands sigs keys).verdict ctx code) :: stack).length + 0 ≤ 1000
    rw [List.length_cons]
    omega
  · rw [execute_checkMultiSig]
    refine (opCheckMultisigs_eq stack (multisigOperands sigs keys) _ rfl
      (multisigOperands_counted hsigs hle hkeys) ?_ henc (fun hand => hand.2 rfl) ?_).trans rfl
    · change (multisigStack sigs keys stack).length < 2 ^ 31
      omega
    · change n + 1 + keys.length ≤ 201
      omega

variable (ctx code stack n) in
/-- Keys are left on the stack, whatever form the pushes have. -/
theorem reaches_pushesKeys {pc : CScript} {keys : List Bytes} (h : PushesKeys rest keys pc)
    (hmin : ctx.fRequireMinimal = true → pushesMinimally pc = true) (hops : n ≤ 200)
    (hstack : keys.length + stack.length ≤ 1000) :
    Reaches ctx (running code pc stack n) (running code rest (keys.reverse ++ stack) n) := by
  have hmax : maxScriptElementSize = 520 := rfl
  induction h generalizing stack with
  | nil => exact Relation.ReflTransGen.refl
  | @cons pc keys hok hsize _ ih =>
    rw [List.length_cons] at hstack
    have hle : (getOp2 pc).opcode ≤ opPushData4 := le_of_data_ne hok fun hnil => by
      rw [hnil] at hsize
      exact absurd hsize.1 (by decide)
    rw [List.reverse_cons, List.append_assoc]
    refine Relation.ReflTransGen.head (turn_read ctx code stack n hok hle
      (fun hflag => (pushesMinimally_of_ok hok (hmin hflag)).1 hle) (by omega) hops (by omega)) ?_
    exact ih ((getOp2 pc).data :: stack) (fun hflag => (pushesMinimally_of_ok hok (hmin hflag)).2)
      (by rw [List.length_cons]; omega)

variable (stack) in
/-- A multisig script leaves the verdict on the signatures and its keys. -/
theorem MultisigScript.evalScript {sigs keys : List Bytes} {script : CScript}
    (h : MultisigScript sigs.length keys script)
    (hmin : ctx.fRequireMinimal = true → pushesMinimally script = true)
    (henc : ∀ vchSig ∈ sigs, ∀ vchPubKey ∈ keys, checkEncodings ctx vchSig vchPubKey = .ok ())
    (hstack : stack.length < 800) :
    (Interpreter.evalScript ctx (sigs.reverse ++ [] :: stack) script).2 =
      .ok (ofBool ((multisigOperands sigs keys).verdict ctx script) :: stack) := by
  obtain ⟨pc, rfl, hpushes⟩ := h.pushes
  have hone := h.one_le
  have hle := h.le_length
  have hmax := h.length_le
  have hget : getOp2 (opN sigs.length :: pc) = ⟨true, opN sigs.length, [], pc⟩ :=
    getOp2_of_lt (opPushData4_lt_opN (by omega)) pc
  have hminKeys : ctx.fRequireMinimal = true → pushesMinimally pc = true := fun hflag => by
    have hrest := (pushesMinimally_of_ok (by rw [hget]) (hmin hflag)).2
    rwa [hget] at hrest
  generalize hcode : opN sigs.length :: pc = code at *
  have hfirst := turn_opN ctx code pc (sigs.reverse ++ [] :: stack) 0 (k := sigs.length) (by omega)
    (by decide) (by simp only [List.length_append, List.length_reverse, List.length_cons]; omega)
  have hkeys := reaches_pushesKeys ctx code (numberOf sigs.length :: (sigs.reverse ++ [] :: stack))
    0 hpushes hminKeys (by decide)
    (by simp only [List.length_append, List.length_reverse, List.length_cons]; omega)
  have hsecond := turn_opN ctx code [opCheckMultiSig]
    (keys.reverse ++ numberOf sigs.length :: (sigs.reverse ++ [] :: stack)) 0 (k := keys.length)
    (by omega) (by decide)
    (by simp only [List.length_append, List.length_reverse, List.length_cons]; omega)
  have hcheck := turn_checkMultiSig code [] stack 0 henc hone hle hmax (by decide) (by omega)
  rw [hcode] at hfirst
  have hreach : Reaches ctx (State.start (sigs.reverse ++ [] :: stack) code) _ :=
    ((Relation.ReflTransGen.head hfirst hkeys).tail hsecond).tail hcheck
  refine evalScript_of_reaches ?_ hreach rfl rfl
  have hlen := hpushes.length_le
  rw [← hcode, List.length_cons]
  simp only [List.length_cons, List.length_nil] at hlen
  omega

variable (stack) in
theorem MultisigScript.evalScript_signed {sigs keys : List Bytes} {script : CScript}
    (h : MultisigScript sigs.length keys script)
    (hmin : ctx.fRequireMinimal = true → pushesMinimally script = true)
    (hsigns : SignsAll ctx script sigs keys) (hstack : stack.length < 800) :
    (Interpreter.evalScript ctx (sigs.reverse ++ [] :: stack) script).2 =
      .ok (vchTrue :: stack) := by
  rw [h.evalScript stack hmin hsigns.encodings hstack, hsigns.verdict]
  rfl

end Multisig

end Scrypta.Interpreter
