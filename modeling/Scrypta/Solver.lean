import Scrypta.Script

/-! The standard output scripts. `Solver` reads a script beside each template in turn; where one
fits, it hands out the keys, hashes and numbers that stand in the template's holes. -/

namespace Scrypta.Script

def op0 : UInt8 := 0x00
def opSmallInteger : UInt8 := 0xfa
def opPubKeys : UInt8 := 0xfb
def opPubKeyHash : UInt8 := 0xfd
def opPubKey : UInt8 := 0xfe

inductive TxnOutType
  | nonstandard
  | pubkey
  | pubkeyhash
  | scripthash
  | multisig
  | nulldata
  deriving DecidableEq, Repr

/-- The templates in the order of the `multimap`. -/
def templates : List (TxnOutType × CScript) :=
  [(.pubkey, [opPubKey, opCheckSig]),
    (.pubkeyhash, [opDup, opHash160, opPubKeyHash, opEqualVerify, opCheckSig]),
    (.multisig, [opSmallInteger, opPubKeys, opSmallInteger, opCheckMultiSig])]

/-- The value of `OP_0` and of `OP_1` to `OP_16`. -/
def decodeOpN (opcode : UInt8) : UInt8 :=
  if opcode = op0 then 0 else opcode - (op1 - 1)

def pushOnlyLoop : ℕ → CScript → Bool
  | 0, _ => true
  | turns + 1, pc =>
    if pc.isEmpty then true
    else (getOp2 pc).ok && (getOp2 pc).opcode ≤ op16 && pushOnlyLoop turns (getOp2 pc).pc

def isPushOnly (pc : CScript) : Bool := pushOnlyLoop pc.length pc

/-- The inner loop at `OP_PUBKEYS`: keys are taken while the script pushes data of their size. -/
def takeKeys : ℕ → Op → List Bytes → Op × List Bytes
  | 0, op, vSolutions => (op, vSolutions)
  | turns + 1, op, vSolutions =>
    if 33 ≤ op.data.length ∧ op.data.length ≤ 65 then
      takeKeys turns (getOp2 op.pc) (vSolutions ++ [op.data])
    else (op, vSolutions)

/-- One opcode of the script against one of the template; `none` where they differ. -/
def matchOpcode (script1 script2 : Op) (vSolutions : List Bytes) : Option (List Bytes) :=
  if script2.opcode = opPubKey then
    if script1.data.length < 33 ∨ 65 < script1.data.length then none
    else some (vSolutions ++ [script1.data])
  else if script2.opcode = opPubKeyHash then
    if script1.data.length ≠ 20 then none else some (vSolutions ++ [script1.data])
  else if script2.opcode = opSmallInteger then
    if script1.opcode = op0 ∨ (op1 ≤ script1.opcode ∧ script1.opcode ≤ op16) then
      some (vSolutions ++ [[decodeOpN script1.opcode]])
    else none
  else if script1.opcode ≠ script2.opcode ∨ script1.data ≠ script2.data then none
  else some vSolutions

/-- The comparison with one template. Every turn takes at least one byte off the template. -/
def matchTemplate : ℕ → CScript → CScript → List Bytes → Option (List Bytes)
  | 0, _, _, _ => none
  | turns + 1, pc1, pc2, vSolutions =>
    if pc1.isEmpty && pc2.isEmpty then some vSolutions
    else
      let script1 := getOp2 pc1
      let script2 := getOp2 pc2
      if !script1.ok || !script2.ok then none
      else if script2.opcode = opPubKeys then
        let (script1, vSolutions) := takeKeys (pc1.length + 1) script1 vSolutions
        let script2 := getOp2 script2.pc
        if !script2.ok then none
        else
          (matchOpcode script1 script2 vSolutions).bind
            (matchTemplate turns script1.pc script2.pc)
      else
        (matchOpcode script1 script2 vSolutions).bind
          (matchTemplate turns script1.pc script2.pc)

def firstByte (v : Option Bytes) : ℕ := ((v.bind List.head?).map UInt8.toNat).getD 0

/-- The numbers `m` and `n` of a multisignature script. -/
def multisigFits (vSolutions : List Bytes) : Bool :=
  let m := firstByte vSolutions.head?
  let n := firstByte vSolutions.getLast?
  1 ≤ m && 1 ≤ n && m ≤ n && vSolutions.length - 2 == n

/-- What `Solver` returns, and the type and the solutions that it leaves behind. -/
structure Solved where
  ok : Bool
  whichType : TxnOutType
  vSolutions : List Bytes
  deriving DecidableEq, Repr

def scanTemplates (script1 : CScript) : List (TxnOutType × CScript) → Solved
  | [] => ⟨false, .nonstandard, []⟩
  | (typeRet, script2) :: rest =>
    match matchTemplate (script2.length + 1) script1 script2 [] with
    | none => scanTemplates script1 rest
    | some vSolutions => ⟨typeRet ≠ .multisig || multisigFits vSolutions, typeRet, vSolutions⟩

/-- `Solver`, with the solutions that its caller hands in. -/
def solver (scriptPubKey : CScript) (vSolutionsRet : List Bytes) : Solved :=
  if isPayToScriptHash scriptPubKey then
    ⟨true, .scripthash, vSolutionsRet ++ [(scriptPubKey.drop 2).take 20]⟩
  else if scriptPubKey.head? = some opReturn ∧ isPushOnly scriptPubKey.tail then
    ⟨true, .nulldata, vSolutionsRet⟩
  else scanTemplates scriptPubKey templates

/-! What the solutions are. Matching only appends, so the first hole of a template is solved by
the first solution. -/

theorem prefix_takeKeys (turns : ℕ) (op : Op) (vSolutions : List Bytes) :
    vSolutions <+: (takeKeys turns op vSolutions).2 := by
  induction turns generalizing op vSolutions with
  | zero => exact List.prefix_refl _
  | succ turns ih =>
    rw [takeKeys]
    split
    · exact (List.prefix_append _ _).trans (ih (getOp2 op.pc) (vSolutions ++ [op.data]))
    · exact List.prefix_refl _

theorem prefix_matchOpcode {script1 script2 : Op} {vSolutions found : List Bytes}
    (h : matchOpcode script1 script2 vSolutions = some found) : vSolutions <+: found := by
  unfold matchOpcode at h
  split_ifs at h <;> cases h
  all_goals first | exact List.prefix_append _ _ | exact List.prefix_refl _

theorem prefix_matchTemplate {turns : ℕ} {pc1 pc2 : CScript} {vSolutions found : List Bytes}
    (h : matchTemplate turns pc1 pc2 vSolutions = some found) : vSolutions <+: found := by
  induction turns generalizing pc1 pc2 vSolutions with
  | zero => cases h
  | succ turns ih =>
    rw [matchTemplate] at h
    dsimp only at h
    split_ifs at h
    · cases h
      exact List.prefix_refl _
    · obtain ⟨v, hv, hrest⟩ := Option.bind_eq_some_iff.mp h
      exact ((prefix_takeKeys _ _ _).trans (prefix_matchOpcode hv)).trans (ih hrest)
    · obtain ⟨v, hv, hrest⟩ := Option.bind_eq_some_iff.mp h
      exact (prefix_matchOpcode hv).trans (ih hrest)

theorem matchTemplate_cons {turns : ℕ} {pc1 pc2 : CScript} {opcode : UInt8}
    {vSolutions found : List Bytes} (hpush : opPushData4 < opcode) (hkeys : opcode ≠ opPubKeys)
    (h : matchTemplate (turns + 1) pc1 (opcode :: pc2) vSolutions = some found) :
    ∃ v, matchOpcode (getOp2 pc1) ⟨true, opcode, [], pc2⟩ vSolutions = some v ∧
      matchTemplate turns (getOp2 pc1).pc pc2 v = some found := by
  have hget : getOp2 (opcode :: pc2) = ⟨true, opcode, [], pc2⟩ := by
    unfold getOp2
    exact if_pos hpush
  rw [matchTemplate] at h
  simp only [hget, List.isEmpty_cons, Bool.and_false, Bool.false_eq_true, if_false, hkeys] at h
  split_ifs at h
  exact Option.bind_eq_some_iff.mp h

theorem matchOpcode_literal {script1 : Op} {opcode : UInt8} {pc2 : CScript}
    {vSolutions found : List Bytes} (hkey : opcode ≠ opPubKey) (hhash : opcode ≠ opPubKeyHash)
    (hint : opcode ≠ opSmallInteger)
    (h : matchOpcode script1 ⟨true, opcode, [], pc2⟩ vSolutions = some found) :
    found = vSolutions := by
  rw [matchOpcode, if_neg hkey, if_neg hhash, if_neg hint] at h
  split_ifs at h
  exact (Option.some.inj h).symm

theorem getElem?_of_prefix_singleton {v : Bytes} {found : List Bytes} (h : [v] <+: found) :
    found[0]? = some v := by
  obtain ⟨rest, rfl⟩ := h
  rfl

theorem matchTemplate_pubkey {turns : ℕ} {pc1 pc2 : CScript} {found : List Bytes}
    (h : matchTemplate turns pc1 (opPubKey :: pc2) [] = some found) :
    ∃ key, found[0]? = some key ∧ 33 ≤ key.length ∧ key.length ≤ 65 := by
  cases turns with
  | zero => cases h
  | succ turns =>
    obtain ⟨v, hv, hrest⟩ := matchTemplate_cons (by decide) (by decide) h
    rw [matchOpcode, if_pos rfl] at hv
    split_ifs at hv with hsize
    cases hv
    exact ⟨_, getElem?_of_prefix_singleton (prefix_matchTemplate hrest), by omega, by omega⟩

theorem matchTemplate_pubkeyhash {turns : ℕ} {pc1 pc2 : CScript} {found : List Bytes}
    (h : matchTemplate (turns + 3) pc1 (opDup :: opHash160 :: opPubKeyHash :: pc2) [] =
      some found) :
    ∃ hash, found[0]? = some hash ∧ hash.length = 20 := by
  obtain ⟨v, hdup, h⟩ := matchTemplate_cons (by decide) (by decide) h
  obtain rfl := matchOpcode_literal (by decide) (by decide) (by decide) hdup
  obtain ⟨v, hhash, h⟩ := matchTemplate_cons (by decide) (by decide) h
  obtain rfl := matchOpcode_literal (by decide) (by decide) (by decide) hhash
  obtain ⟨v, hv, hrest⟩ := matchTemplate_cons (by decide) (by decide) h
  rw [matchOpcode, if_neg (show opPubKeyHash ≠ opPubKey by decide), if_pos rfl] at hv
  split_ifs at hv with hsize
  cases hv
  exact ⟨_, getElem?_of_prefix_singleton (prefix_matchTemplate hrest), not_not.mp hsize⟩

/-- Where `Solver` names the type of a template, it has matched that template. -/
theorem exists_match_of_scan {script1 : CScript} {ts : List (TxnOutType × CScript)}
    {typeRet : TxnOutType} (htype : (scanTemplates script1 ts).whichType = typeRet)
    (hne : typeRet ≠ .nonstandard) :
    ∃ script2, (typeRet, script2) ∈ ts ∧ matchTemplate (script2.length + 1) script1 script2 [] =
      some (scanTemplates script1 ts).vSolutions := by
  induction ts with
  | nil => exact absurd htype.symm hne
  | cons t ts ih =>
    obtain ⟨t, script2⟩ := t
    cases hm : matchTemplate (script2.length + 1) script1 script2 [] with
    | none =>
      rw [scanTemplates, hm] at htype ⊢
      obtain ⟨script2', hmem, hmatch⟩ := ih htype
      exact ⟨script2', List.mem_cons_of_mem _ hmem, hmatch⟩
    | some found =>
      rw [scanTemplates, hm] at htype ⊢
      cases htype
      exact ⟨script2, List.mem_cons_self, hm⟩

theorem solver_of_template {s : CScript} {vSolutionsRet : List Bytes} {typeRet : TxnOutType}
    (htype : (solver s vSolutionsRet).whichType = typeRet)
    (hhash : typeRet ≠ .scripthash) (hdata : typeRet ≠ .nulldata) :
    solver s vSolutionsRet = scanTemplates s templates := by
  unfold solver at htype ⊢
  split_ifs at htype ⊢
  · exact absurd htype.symm hhash
  · exact absurd htype.symm hdata
  · rfl

theorem solver_pubkey {s : CScript} {vSolutionsRet : List Bytes}
    (htype : (solver s vSolutionsRet).whichType = .pubkey) :
    ∃ key, (solver s vSolutionsRet).vSolutions[0]? = some key ∧
      33 ≤ key.length ∧ key.length ≤ 65 := by
  have hs := solver_of_template htype (by decide) (by decide)
  rw [hs] at htype ⊢
  obtain ⟨script2, hmem, hmatch⟩ := exists_match_of_scan htype (by decide)
  obtain rfl : script2 = [opPubKey, opCheckSig] := by simpa [templates] using hmem
  exact matchTemplate_pubkey hmatch

theorem solver_pubkeyhash {s : CScript} {vSolutionsRet : List Bytes}
    (htype : (solver s vSolutionsRet).whichType = .pubkeyhash) :
    ∃ hash, (solver s vSolutionsRet).vSolutions[0]? = some hash ∧ hash.length = 20 := by
  have hs := solver_of_template htype (by decide) (by decide)
  rw [hs] at htype ⊢
  obtain ⟨script2, hmem, hmatch⟩ := exists_match_of_scan htype (by decide)
  obtain rfl : script2 = [opDup, opHash160, opPubKeyHash, opEqualVerify, opCheckSig] := by
    simpa [templates] using hmem
  exact matchTemplate_pubkeyhash hmatch

end Scrypta.Script
