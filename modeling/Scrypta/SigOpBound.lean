import Scrypta.StackSafety

/-! The number of signature operations that is read off a script bounds the number of signature
checks of any run of it. -/

namespace Scrypta.Interpreter

open Script Outcome

/-! The static count. -/

/-- What an operation adds to the count. -/
def sigOpWeight (fAccurate : Bool) (lastOpcode opcode : UInt8) : ℕ :=
  if opcode = opCheckSig ∨ opcode = opCheckSigVerify then 1
  else if opcode = opCheckMultiSig ∨ opcode = opCheckMultiSigVerify then
    if fAccurate ∧ op1 ≤ lastOpcode ∧ lastOpcode ≤ op16 then lastOpcode.toNat - (op1.toNat - 1)
    else 20
  else 0

theorem sigOpCountLoop_succ (fAccurate : Bool) (turns : ℕ) (lastOpcode : UInt8) (pc : CScript) :
    sigOpCountLoop fAccurate (turns + 1) lastOpcode pc =
      if !(getOp2 pc).ok then 0
      else sigOpWeight fAccurate lastOpcode (getOp2 pc).opcode +
        sigOpCountLoop fAccurate turns (getOp2 pc).opcode (getOp2 pc).pc := rfl

theorem sigOpWeight_le (fAccurate : Bool) (lastOpcode opcode : UInt8) :
    sigOpWeight fAccurate lastOpcode opcode ≤ sigOpWeight false lastOpcode opcode := by
  unfold sigOpWeight
  split
  · exact Nat.le_refl 1
  · split
    · split
      · rename_i hsmall
        have hle := UInt8.le_iff_toNat_le.1 hsmall.2.2
        have h16 : op16.toNat = 96 := rfl
        have h1 : op1.toNat = 81 := rfl
        rw [if_neg (by simp)]
        omega
      · rw [if_neg (by simp)]
    · exact Nat.le_refl 0

theorem sigOpWeight_le_twenty (fAccurate : Bool) (lastOpcode opcode : UInt8) :
    sigOpWeight fAccurate lastOpcode opcode ≤ 20 := by
  refine (sigOpWeight_le fAccurate lastOpcode opcode).trans ?_
  unfold sigOpWeight
  split
  · decide
  · split
    · rw [if_neg (by simp)]
    · decide

theorem sigOpCountLoop_le (fAccurate : Bool) (turns : ℕ) (lastOpcode : UInt8) (pc : CScript) :
    sigOpCountLoop fAccurate turns lastOpcode pc ≤ sigOpCountLoop false turns lastOpcode pc := by
  induction turns generalizing lastOpcode pc with
  | zero => exact Nat.le_refl 0
  | succ turns ih =>
    rw [sigOpCountLoop_succ, sigOpCountLoop_succ]
    split
    · exact Nat.le_refl 0
    · exact Nat.add_le_add (sigOpWeight_le fAccurate _ _) (ih _ _)

theorem sigOpCountLoop_le_twenty (fAccurate : Bool) (turns : ℕ) (lastOpcode : UInt8)
    (pc : CScript) : sigOpCountLoop fAccurate turns lastOpcode pc ≤ 20 * turns := by
  induction turns generalizing lastOpcode pc with
  | zero => exact Nat.le_refl 0
  | succ turns ih =>
    rw [sigOpCountLoop_succ]
    split
    · exact Nat.zero_le _
    · have hweight := sigOpWeight_le_twenty fAccurate lastOpcode (getOp2 pc).opcode
      have hrest := ih (getOp2 pc).opcode (getOp2 pc).pc
      omega

section Calls

variable {ctx : Context} {s : State}

theorem after_calls {α β : Type} {n : ℕ} {x : Exec α} {f : α → Counted β}
    (h : ∀ a, x = .ok a → (f a).1 ≤ n) : (Counted.after x f).1 ≤ n := by
  cases x with
  | error stop => exact Nat.zero_le n
  | ok a => exact h a rfl

theorem ite_calls {α : Type} {n : ℕ} {p : Prop} [Decidable p] {a b : Counted α}
    (ha : p → a.1 ≤ n) (hb : ¬p → b.1 ≤ n) : (if p then a else b).1 ≤ n := by
  split
  · exact ha ‹p›
  · exact hb ‹¬p›

theorem matchSignatures_calls (stack : List Bytes) (scriptCode : CScript)
    (nKeysCount nSigsCount isig ikey : ℕ) :
    (matchSignatures ctx stack scriptCode nKeysCount nSigsCount isig ikey).1 ≤ nKeysCount := by
  induction nKeysCount generalizing nSigsCount isig ikey with
  | zero =>
    unfold matchSignatures
    split <;> exact Nat.le_refl 0
  | succ nKeys ih =>
    unfold matchSignatures
    refine ite_calls (fun _ => Nat.zero_le _) fun _ => ?_
    refine ite_calls (fun _ => Nat.zero_le _) fun _ => ?_
    refine after_calls fun pair _ => ?_
    dsimp only
    split <;> exact Nat.succ_le_succ (ih _ _ _)

/-- The number that `OP_1` to `OP_16` push. -/
def pushedNumber (opcode : UInt8) : ℕ := opcode.toNat - (op1.toNat - 1)

/-- The numbers that `OP_1` to `OP_16` push are read back as themselves. -/
theorem ofVch_pushedNumber {opcode : UInt8} (h : op1 ≤ opcode ∧ opcode ≤ op16)
    (fRequireMinimal : Bool) :
    CScriptNum.ofVch fRequireMinimal
      (ScriptNum.serialize ((opcode.toNat : ℤ) - (op1.toNat - 1))) =
        .ok (pushedNumber opcode : ℤ) := by
  have hall : ∀ n : Fin 16, ∀ m : Bool, CScriptNum.ofVch m
      (ScriptNum.serialize (((n.val + 81 : ℕ) : ℤ) - (81 - 1))) = .ok ((n.val + 1 : ℕ) : ℤ) := by
    decide
  have hlo := UInt8.le_iff_toNat_le.1 h.1
  have hhi := UInt8.le_iff_toNat_le.1 h.2
  have h1 : op1.toNat = 81 := rfl
  have h16 : op16.toNat = 96 := rfl
  have hn := hall ⟨opcode.toNat - 81, by omega⟩ fRequireMinimal
  dsimp only at hn
  have hback : opcode.toNat - 81 + 81 = opcode.toNat := by omega
  have hvalue : opcode.toNat - 81 + 1 = pushedNumber opcode := by
    unfold pushedNumber
    omega
  rw [hback, hvalue] at hn
  exact hn

theorem getInt_pushedNumber {opcode : UInt8} (h : op1 ≤ opcode ∧ opcode ≤ op16) :
    CScriptNum.getInt (pushedNumber opcode : ℤ) = pushedNumber opcode := by
  have hhi := UInt8.le_iff_toNat_le.1 h.2
  have h16 : op16.toNat = 96 := rfl
  have hmax : CScriptNum.intMax = 2 ^ 31 - 1 := rfl
  have hmin : CScriptNum.intMin = -2 ^ 31 := rfl
  have hsmall : pushedNumber opcode ≤ 96 := by
    unfold pushedNumber
    omega
  unfold CScriptNum.getInt
  rw [if_neg (by omega), if_neg (by omega)]

/-- Where the last opcode pushed a small number and was executed, the number is the top element. -/
def Pushed (lastOpcode : UInt8) (s : State) : Prop :=
  op1 ≤ lastOpcode ∧ lastOpcode ≤ op16 → s.fExec = true →
    s.stack.head? = some (ScriptNum.serialize ((lastOpcode.toNat : ℤ) - (op1.toNat - 1)))

/-- A small number in front of a multisig check is its number of keys. -/
theorem multisigArgs_keys {lastOpcode : UInt8} (h : op1 ≤ lastOpcode ∧ lastOpcode ≤ op16)
    (htop : s.stack.head? =
      some (ScriptNum.serialize ((lastOpcode.toNat : ℤ) - (op1.toNat - 1)))) :
    Ensures (multisigArgs ctx s) (·.nKeysCount = pushedNumber lastOpcode) fun _ => True := by
  have hstack : stacktop s.stack 1 =
      .ok (ScriptNum.serialize ((lastOpcode.toNat : ℤ) - (op1.toNat - 1))) := by
    cases hs : s.stack with
    | nil => rw [hs] at htop; cases htop
    | cons vch stack =>
      rw [hs] at htop
      exact congrArg Except.ok (Option.some.inj htop)
  have hany (i : ℕ) : Ensures (needsInt i s.stack) (fun _ => True) fun _ => True :=
    ⟨fun _ _ => trivial, fun _ _ => trivial⟩
  unfold multisigArgs
  refine (hany 1).monadBind fun _ _ => ?_
  rw [hstack]
  refine Ensures.monadBind (Q := fun vch =>
    vch = ScriptNum.serialize ((lastOpcode.toNat : ℤ) - (op1.toNat - 1))) (ensures_ok rfl) ?_
  intro vch hvch
  subst hvch
  rw [ofVch_pushedNumber h]
  refine Ensures.monadBind (Q := fun bn => bn = (pushedNumber lastOpcode : ℤ))
    (ensures_ok rfl) ?_
  intro bn hbn
  subst hbn
  rw [getInt_pushedNumber h]
  dsimp only
  split
  · exact ensures_error trivial
  · split
    · exact ensures_error trivial
    · refine (hany _).monadBind fun _ _ => ?_
      refine Ensures.monadBind (Q := fun _ => True) ⟨fun _ _ => trivial, fun _ _ => trivial⟩ ?_
      intro vch _
      refine Ensures.monadBind (Q := fun _ => True) ⟨fun _ _ => trivial, fun _ _ => trivial⟩ ?_
      intro bn _
      split
      · exact ensures_error trivial
      · refine (hany _).monadBind fun _ _ => ?_
        exact ensures_ok (Int.toNat_natCast _)

theorem multisigScriptCode_args {args : MultisigArgs} {scriptCode : CScript}
    (h : multisigScriptCode ctx s = .ok (args, scriptCode)) : multisigArgs ctx s = .ok args := by
  unfold multisigScriptCode at h
  cases hargs : multisigArgs ctx s with
  | error stop =>
    rw [hargs] at h
    cases h
  | ok args' =>
    rw [hargs] at h
    change (dropSignatures s.stack args'.nSigsCount args'.isig s.pbegincodehash).bind
      (fun scriptCode => .ok (args', scriptCode)) = _ at h
    cases hdrop : dropSignatures s.stack args'.nSigsCount args'.isig s.pbegincodehash with
    | error stop =>
      rw [hdrop] at h
      cases h
    | ok code =>
      rw [hdrop] at h
      cases h
      rfl

variable (ctx) in
theorem opCheckMultisigs_calls (thenVerify : Bool) {lastOpcode : UInt8}
    (hpushed : Pushed lastOpcode s) (hexec : s.fExec = true) :
    (opCheckMultisigs ctx thenVerify s).1 ≤
      if op1 ≤ lastOpcode ∧ lastOpcode ≤ op16 then pushedNumber lastOpcode else 20 := by
  refine after_calls fun (args, scriptCode) hcode => ?_
  have hargs := multisigScriptCode_args hcode
  refine (matchSignatures_calls s.stack scriptCode _ _ _ _).trans ?_
  split
  · rename_i hsmall
    exact le_of_eq ((multisigArgs_keys hsmall (hpushed hsmall hexec)).of_ok hargs)
  · exact (multisigArgs_fits.of_ok hargs).keys

theorem opCheckSigs_calls (thenVerify : Bool) : (opCheckSigs ctx thenVerify s).1 ≤ 1 :=
  after_calls fun _ _ => Nat.le_refl 1

/-- The checks of an opcode are no more than it counts. -/
theorem execute_calls {lastOpcode opcode : UInt8} (hpushed : Pushed lastOpcode s)
    (hexec : s.fExec = true ∨ (opIf ≤ opcode ∧ opcode ≤ opEndIf)) :
    (execute ctx s.fExec opcode s).1 ≤ sigOpWeight true lastOpcode opcode := by
  unfold execute
  refine ite_calls (fun _ => Nat.zero_le _) fun _ => ?_
  refine ite_calls (fun _ => Nat.zero_le _) fun _ => ?_
  refine ite_calls (fun _ => ?_) fun _ => ?_
  · exact ite_calls (fun _ => Nat.zero_le _) fun _ => Nat.zero_le _
  refine ite_calls (fun _ => Nat.zero_le _) fun _ => ?_
  refine ite_calls (fun _ => ?_) fun _ => ?_
  · match s.vfExec with
    | [] => exact Nat.zero_le _
    | _ :: _ => exact Nat.zero_le _
  refine ite_calls (fun _ => ?_) fun _ => ?_
  · match s.vfExec with
    | [] => exact Nat.zero_le _
    | _ :: _ => exact Nat.zero_le _
  refine ite_calls (fun _ => Nat.zero_le _) fun _ => ?_
  refine ite_calls (fun _ => Nat.zero_le _) fun _ => ?_
  refine ite_calls (fun _ => Nat.zero_le _) fun _ => ?_
  refine ite_calls (fun _ => Nat.zero_le _) fun _ => ?_
  refine ite_calls (fun hsig => ?_) fun hsig => ?_
  · rw [sigOpWeight, if_pos hsig]
    exact opCheckSigs_calls _
  refine ite_calls (fun hmulti => ?_) fun _ => ?_
  · rw [sigOpWeight, if_neg hsig, if_pos hmulti]
    have hrange : ¬(opIf ≤ opcode ∧ opcode ≤ opEndIf) := by
      rcases hmulti with rfl | rfl <;> decide
    have hcalls := opCheckMultisigs_calls ctx (opcode = opCheckMultiSigVerify) hpushed
      (hexec.resolve_right hrange)
    simp only [true_and]
    exact hcalls
  match (stackOps ctx.hashes ctx.fRequireMinimal).lookup opcode with
  | some _ => exact Nat.zero_le _
  | none => exact Nat.zero_le _

theorem perform_calls {lastOpcode : UInt8} (hpushed : Pushed lastOpcode s) (opcode : UInt8)
    (vchPushValue : Bytes) :
    (perform ctx opcode vchPushValue s).1 ≤ sigOpWeight true lastOpcode opcode := by
  unfold perform
  refine ite_calls (fun _ => ?_) fun _ => ?_
  · exact ite_calls (fun _ => Nat.zero_le _) fun _ => Nat.zero_le _
  · exact ite_calls (fun hexec => execute_calls hpushed hexec) fun _ => Nat.zero_le _

/-! Runs. -/

theorem readInstruction_of_ok {r : UInt8 × Bytes × State} (h : readInstruction s = .ok r) :
    (getOp2 s.pc).ok = true ∧ (getOp2 s.pc).data.length ≤ maxScriptElementSize ∧
      ∃ nOpCount, r = ((getOp2 s.pc).opcode, (getOp2 s.pc).data,
        { s with pc := (getOp2 s.pc).pc, nOpCount := nOpCount }) := by
  unfold readInstruction at h
  dsimp only at h
  generalize (if op16 < (getOp2 s.pc).opcode then s.nOpCount + 1 else s.nOpCount) = nOpCount at h
  split at h
  · cases h
  · rename_i hok
    split at h
    · cases h
    · rename_i hsize
      split at h
      · cases h
      · split at h
        · cases h
        · exact ⟨by simpa using hok, Nat.le_of_not_lt hsize, nOpCount, (Except.ok.inj h).symm⟩

theorem sizeLimit_of_ok {s₁ : State} (h : sizeLimit s₁ = .ok s) : s = s₁ := by
  unfold sizeLimit at h
  split at h
  · cases h
  · exact (Except.ok.inj h).symm

/-- What a turn of the loop amounts to: an instruction is read and performed. -/
theorem step_of_ok {s' : State} (h : (step ctx s).2 = .ok s') :
    (getOp2 s.pc).ok = true ∧ (getOp2 s.pc).data.length ≤ maxScriptElementSize ∧ ∃ nOpCount,
      (perform ctx (getOp2 s.pc).opcode (getOp2 s.pc).data
        { s with pc := (getOp2 s.pc).pc, nOpCount := nOpCount }).2 = .ok s' := by
  unfold step at h
  cases hread : readInstruction s with
  | error stop =>
    rw [hread] at h
    cases h
  | ok r =>
    obtain ⟨hok, hsize, nOpCount, hr⟩ := readInstruction_of_ok hread
    rw [hread, hr] at h
    refine ⟨hok, hsize, nOpCount, ?_⟩
    change (perform ctx _ _ _).2.bind sizeLimit = _ at h
    cases hperform : (perform ctx (getOp2 s.pc).opcode (getOp2 s.pc).data
        { s with pc := (getOp2 s.pc).pc, nOpCount := nOpCount }).2 with
    | error stop =>
      rw [hperform] at h
      cases h
    | ok s₁ =>
      rw [hperform] at h
      exact congrArg Except.ok (sizeLimit_of_ok h).symm

variable (ctx) in
theorem step_calls {lastOpcode : UInt8} (hpushed : Pushed lastOpcode s) :
    (step ctx s).1 ≤
      if !(getOp2 s.pc).ok then 0 else sigOpWeight true lastOpcode (getOp2 s.pc).opcode := by
  refine after_calls fun r hread => ?_
  obtain ⟨hok, _, nOpCount, hr⟩ := readInstruction_of_ok hread
  subst hr
  rw [hok]
  exact perform_calls (s := { s with pc := (getOp2 s.pc).pc, nOpCount := nOpCount }) hpushed _ _

/-- Executed or not, an opcode that pushes a small number leaves the conditions alone. -/
theorem perform_pushed {opcode : UInt8} {vchPushValue : Bytes} {s' : State}
    (h : (perform ctx opcode vchPushValue s).2 = .ok s') : Pushed opcode s' := by
  intro hsmall hexec
  have hpush : ¬(opcode ≤ opPushData4) := by
    have hlo := UInt8.le_iff_toNat_le.1 hsmall.1
    have h1 : op1.toNat = 81 := rfl
    have h4 : opPushData4.toNat = 78 := rfl
    rw [UInt8.le_iff_toNat_le]
    omega
  have hcond : ¬(opIf ≤ opcode ∧ opcode ≤ opEndIf) := by
    have hhi := UInt8.le_iff_toNat_le.1 hsmall.2
    have h16 : op16.toNat = 96 := rfl
    have hif : opIf.toNat = 99 := rfl
    rw [UInt8.le_iff_toNat_le]
    omega
  unfold perform at h
  rw [if_neg (fun hboth => hpush hboth.2)] at h
  by_cases hs : s.fExec = true
  · rw [if_pos (Or.inl hs), execute, if_pos (Or.inr hsmall)] at h
    cases Except.ok.inj h
    rfl
  · rw [if_neg (fun hor => hor.elim hs hcond)] at h
    cases Except.ok.inj h
    exact absurd hexec hs

theorem step_pushed {s' : State} (h : (step ctx s).2 = .ok s') :
    (getOp2 s.pc).ok = true ∧ s'.pc = (getOp2 s.pc).pc ∧ Pushed (getOp2 s.pc).opcode s' := by
  obtain ⟨hok, hsize, nOpCount, hperform⟩ := step_of_ok h
  exact ⟨hok, ((perform_safe _ hsize).of_ok hperform).1, perform_pushed hperform⟩

/-- The run makes no more checks than the scan counts from the same place on. -/
theorem evalLoop_calls {turns turns' : ℕ} {lastOpcode : UInt8} (hpushed : Pushed lastOpcode s)
    (h : s.pc.length ≤ turns') :
    (evalLoop ctx turns s).1 ≤ sigOpCountLoop true turns' lastOpcode s.pc := by
  induction turns generalizing turns' lastOpcode s with
  | zero =>
    unfold evalLoop
    split <;> exact Nat.zero_le _
  | succ turns ih =>
    unfold evalLoop
    refine ite_calls (fun _ => Nat.zero_le _) fun hpc => ?_
    cases turns' with
    | zero => exact absurd (List.eq_nil_of_length_eq_zero (Nat.le_zero.1 h)) hpc
    | succ turns' =>
      have hcalls := step_calls ctx hpushed
      rw [sigOpCountLoop_succ]
      cases hstep : step ctx s with
      | mk calls r =>
        cases r with
        | error stop =>
          rw [hstep] at hcalls
          refine hcalls.trans ?_
          split
          · exact Nat.le_refl 0
          · exact Nat.le_add_right _ _
        | ok s' =>
          obtain ⟨hok, hpc', hpushed'⟩ := step_pushed (congrArg Prod.snd hstep)
          have hlt := length_getOp2_lt hpc
          have hturns : s'.pc.length ≤ turns' := by rw [hpc']; omega
          have hrest := ih hpushed' hturns
          rw [hstep, hok] at hcalls
          rw [hpc'] at hrest
          rw [hok]
          exact Nat.add_le_add hcalls hrest

theorem evalScript_calls (stack : List Bytes) (script : CScript) :
    (evalScript ctx stack script).1 ≤ getSigOpCount true script := by
  unfold evalScript
  refine ite_calls (fun _ => Nat.zero_le _) fun _ => ?_
  have hpushed : Pushed opInvalidOpcode (State.start stack script) := fun h => by
    exact absurd h (by decide)
  exact evalLoop_calls hpushed (Nat.le_refl _)

/-! The redeem script. -/

/-- A script that only pushes has a last push. -/
theorem lastPush_of_pushOnly {turns : ℕ} {pc : CScript} (h : pushOnlyLoop turns pc = true)
    (data : Bytes) : ∃ data', lastPush turns data pc = some data' := by
  induction turns generalizing pc data with
  | zero => exact ⟨data, rfl⟩
  | succ turns ih =>
    unfold pushOnlyLoop at h
    unfold lastPush
    by_cases hempty : pc.isEmpty = true
    · exact ⟨data, if_pos hempty⟩
    · rw [if_neg hempty] at h ⊢
      simp only [Bool.and_eq_true, decide_eq_true_eq] at h
      obtain ⟨⟨hok, hopcode⟩, hrest⟩ := h
      obtain ⟨data', hdata⟩ := ih hrest (getOp2 pc).data
      refine ⟨data', ?_⟩
      dsimp only
      rw [hok, if_neg (by decide), if_neg (UInt8.not_lt.2 hopcode)]
      exact hdata

/-- The top element, as a script, counts no more than these bytes do. -/
def TopCountsAtMost (stack : List Bytes) (data : Bytes) : Prop :=
  ∀ vch ∈ stack.head?, getSigOpCount true vch ≤ getSigOpCount true data

/-- `OP_1NEGATE` and `OP_1` to `OP_16` push bytes that count nothing. -/
theorem getSigOpCount_number {opcode : UInt8}
    (h : opcode = op1Negate ∨ (op1 ≤ opcode ∧ opcode ≤ op16)) :
    getSigOpCount true (ScriptNum.serialize ((opcode.toNat : ℤ) - (op1.toNat - 1))) = 0 := by
  have hall : ∀ n : Fin 18, getSigOpCount true
      (ScriptNum.serialize (((n.val + 79 : ℕ) : ℤ) - (81 - 1))) = 0 := by decide
  have hrange : 79 ≤ opcode.toNat ∧ opcode.toNat ≤ 96 := by
    rcases h with rfl | ⟨hlo, hhi⟩
    · exact ⟨by decide, by decide⟩
    · have hlo := UInt8.le_iff_toNat_le.1 hlo
      have hhi := UInt8.le_iff_toNat_le.1 hhi
      have h1 : op1.toNat = 81 := rfl
      have h16 : op16.toNat = 96 := rfl
      omega
  have hn := hall ⟨opcode.toNat - 79, by omega⟩
  dsimp only at hn
  rw [Nat.sub_add_cancel hrange.1] at hn
  exact hn

theorem execute_opReserved (fExec : Bool) :
    execute ctx fExec opReserved s = (0, .error (.error .badOpcode)) := rfl

/-- What an instruction of a script that only pushes leaves. -/
theorem perform_push {opcode : UInt8} {data : Bytes} {s' : State} (hopcode : opcode ≤ op16)
    (hexec : s.vfExec = []) (h : (perform ctx opcode data s).2 = .ok s') :
    s'.vfExec = [] ∧ TopCountsAtMost s'.stack data := by
  have hfExec : s.fExec = true := by rw [State.fExec, hexec]; rfl
  unfold perform at h
  by_cases hpush : opcode ≤ opPushData4
  · rw [if_pos ⟨hfExec, hpush⟩] at h
    split at h
    · cases h
    · cases Except.ok.inj h
      refine ⟨hexec, fun vch hvch => ?_⟩
      cases hvch
      exact Nat.le_refl _
  · rw [if_neg (fun hboth => hpush hboth.2), if_pos (Or.inl hfExec)] at h
    by_cases hnumber : opcode = op1Negate ∨ (op1 ≤ opcode ∧ opcode ≤ op16)
    · rw [execute, if_pos hnumber] at h
      cases Except.ok.inj h
      refine ⟨hexec, fun vch hvch => ?_⟩
      cases hvch
      rw [getSigOpCount_number hnumber]
      exact Nat.zero_le _
    · have hreserved : opcode = opReserved := by
        rw [not_or, not_and] at hnumber
        apply UInt8.toNat_inj.1
        have hnegate : opcode.toNat ≠ op1Negate.toNat := fun heq =>
          hnumber.1 (UInt8.toNat_inj.1 heq)
        have hlow : ¬(op1 ≤ opcode) := fun hle => hnumber.2 hle hopcode
        rw [UInt8.le_iff_toNat_le] at hpush hlow
        have h4 : opPushData4.toNat = 78 := rfl
        have h1 : op1.toNat = 81 := rfl
        have hneg : op1Negate.toNat = 79 := rfl
        have hres : opReserved.toNat = 80 := rfl
        omega
      rw [hreserved, execute_opReserved] at h
      cases h

/-- The top element at the end is the last push, or a number. -/
theorem evalLoop_lastPush {turns turns' n : ℕ} {data data' : Bytes} {s' : State}
    (hexec : s.vfExec = []) (htop : TopCountsAtMost s.stack data) (hlen : s.pc.length ≤ turns')
    (hlast : lastPush turns' data s.pc = some data')
    (h : evalLoop ctx turns s = (n, .ok s')) : TopCountsAtMost s'.stack data' := by
  induction turns generalizing turns' data s n with
  | zero =>
    unfold evalLoop at h
    split at h
    · rename_i hpc
      cases h
      rw [hpc] at hlast
      cases turns' <;> cases hlast <;> exact htop
    · cases h
  | succ turns ih =>
    unfold evalLoop at h
    by_cases hpc : s.pc = []
    · rw [if_pos hpc] at h
      cases h
      rw [hpc] at hlast
      cases turns' <;> cases hlast <;> exact htop
    · rw [if_neg hpc] at h
      cases turns' with
      | zero => exact absurd (List.eq_nil_of_length_eq_zero (Nat.le_zero.1 hlen)) hpc
      | succ turns' =>
        cases hstep : step ctx s with
        | mk calls r =>
          rw [hstep] at h
          cases r with
          | error stop => cases h
          | ok s₁ =>
            obtain ⟨hok, hsize, nOpCount, hperform⟩ := step_of_ok (congrArg Prod.snd hstep)
            unfold lastPush at hlast
            rw [if_neg (by simpa using hpc)] at hlast
            dsimp only at hlast
            rw [hok, if_neg (by decide)] at hlast
            by_cases hopcode : op16 < (getOp2 s.pc).opcode
            · rw [if_pos hopcode] at hlast
              cases hlast
            · rw [if_neg hopcode] at hlast
              have hpc' : s₁.pc = (getOp2 s.pc).pc := ((perform_safe _ hsize).of_ok hperform).1
              have hlt := length_getOp2_lt hpc
              obtain ⟨hexec', htop'⟩ := perform_push (s := { s with
                pc := (getOp2 s.pc).pc, nOpCount := nOpCount }) (UInt8.not_lt.1 hopcode) hexec
                hperform
              change Prod.map (calls + ·) id (evalLoop ctx turns s₁) = _ at h
              cases hrun : evalLoop ctx turns s₁ with
              | mk k r =>
                rw [hrun] at h
                have hr : r = .ok s' := congrArg Prod.snd h
                rw [hr] at hrun
                exact ih hexec' htop' (by rw [hpc']; omega) (hpc' ▸ hlast) hrun

theorem evalScript_lastPush {scriptSig : CScript} {n : ℕ} {data : Bytes} {stack : List Bytes}
    (hlast : lastPush scriptSig.length [] scriptSig = some data)
    (h : evalScript ctx [] scriptSig = (n, .ok stack)) : TopCountsAtMost stack data := by
  unfold evalScript at h
  split at h
  · cases h
  · match hrun : evalLoop ctx scriptSig.length (State.start [] scriptSig), h with
    | (k, .ok s'), h =>
      have htop : TopCountsAtMost s'.stack data :=
        evalLoop_lastPush rfl (fun vch hvch => by cases hvch) (Nat.le_refl _) hlast hrun
      have hstack := congrArg Prod.snd h
      change (if s'.vfExec ≠ [] then _ else Except.ok s'.stack) = _ at hstack
      split at hstack
      · cases hstack
      · cases Except.ok.inj hstack
        exact htop

theorem evalRedeemScript_calls {stackCopy : List Bytes} {data : Bytes}
    (htop : TopCountsAtMost stackCopy data) :
    (evalRedeemScript ctx stackCopy).1 ≤ getSigOpCount true data := by
  cases stackCopy with
  | nil => exact Nat.zero_le _
  | cons pubKeySerialized stackCopy =>
    exact (evalScript_calls stackCopy pubKeySerialized).trans (htop _ rfl)

theorem verifyScript_calls {scriptSig scriptPubKey : CScript}
    (hp2sh : isPayToScriptHash scriptPubKey = true) (hpush : isPushOnly scriptSig = true) :
    (verifyScript ctx scriptSig scriptPubKey).nCallsRedeemScript ≤
      getSigOpCountFor scriptPubKey scriptSig := by
  obtain ⟨data, hdata⟩ := lastPush_of_pushOnly hpush []
  have hcount : getSigOpCountFor scriptPubKey scriptSig = getSigOpCount true data := by
    rw [getSigOpCountFor, hp2sh, hdata]
    rfl
  rw [hcount]
  unfold verifyScript
  split
  · exact Nat.zero_le _
  · match hsig : evalScript ctx [] scriptSig with
    | (n, .error stop) => exact Nat.zero_le _
    | (n, .ok stackCopy) =>
      have htop := evalScript_lastPush hdata hsig
      dsimp only
      match evalScript ctx stackCopy scriptPubKey with
      | (k, .error stop) => exact Nat.zero_le _
      | (k, .ok stack) =>
        dsimp only
        match checkTop stack with
        | .error stop => exact Nat.zero_le _
        | .ok () =>
          dsimp only
          split
          · split
            · exact Nat.zero_le _
            · exact evalRedeemScript_calls htop
          · exact Nat.zero_le _

end Calls

/-- Whatever the stack, the flags and the checker, the accurate count bounds the checks of a run
and the rough count bounds the accurate one; and the count of an input bounds the checks of its
redeem script. -/
theorem sigOpCount_bounds_checks :
    (∀ ctx stack script, (evalScript ctx stack script).1 ≤ getSigOpCount true script) ∧
    (∀ script, getSigOpCount true script ≤ getSigOpCount false script) ∧
    ∀ ctx scriptSig scriptPubKey, isPayToScriptHash scriptPubKey = true →
      isPushOnly scriptSig = true →
        (verifyScript ctx scriptSig scriptPubKey).nCallsRedeemScript ≤
          getSigOpCountFor scriptPubKey scriptSig :=
  ⟨fun _ => evalScript_calls, fun script => sigOpCountLoop_le true script.length _ script,
    fun _ _ _ => verifyScript_calls⟩

end Scrypta.Interpreter
