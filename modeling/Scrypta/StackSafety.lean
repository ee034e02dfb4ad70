import Mathlib.Data.List.Induction
import Mathlib.Logic.Relation
import Mathlib.Tactic.Ring
import Mathlib.Tactic.Tauto
import Scrypta.Interpreter

/-! The interpreter never leaves its stacks: no opcode reads or erases a position that does not
exist, no number overflows, elements stay short and the stacks small. -/

namespace Scrypta.Interpreter

open Script Outcome

/-- A stop that the interpreter may come to: an error that is reported as such, or an operand that
is too long for a number or not minimal where that is required. -/
def Stop.Proper (fRequireMinimal : Bool) : Stop → Prop
  | .error serror => serror ≠ .unknownError
  | .notNumber vch =>
    4 < vch.length ∨ (fRequireMinimal = true ∧ CScriptNum.isMinimal vch = false)
  | _ => False

/-- The elements of the new stack come from the old one, or are short. -/
def Within (old new : List Bytes) : Prop :=
  ∀ vch ∈ new, vch ∈ old ∨ vch.length ≤ maxScriptElementSize

theorem Within.refl (stack : List Bytes) : Within stack stack := fun _ h => Or.inl h

theorem Within.cons {old new : List Bytes} (h : Within old new) {vch : Bytes}
    (hvch : vch ∈ old ∨ vch.length ≤ maxScriptElementSize) : Within old (vch :: new) := by
  intro v hv
  cases List.mem_cons.1 hv with
  | inl heq => exact heq ▸ hvch
  | inr hmem => exact h v hmem

theorem Within.of_subset {old new : List Bytes} (h : new ⊆ old) : Within old new :=
  fun _ hv => Or.inl (h hv)

theorem Within.trans {a b c : List Bytes} (hab : Within a b) (hbc : Within b c) : Within a c := by
  intro v hv
  cases hbc v hv with
  | inl hmem => exact hab v hmem
  | inr hlen => exact Or.inr hlen

/-! Numbers. -/

namespace CScriptNum

theorem decode_concat (vch : Bytes) (b : UInt8) :
    LittleEndian.decode (vch ++ [b]) = LittleEndian.decode vch + b.toNat * 256 ^ vch.length := by
  induction vch with
  | nil => simp [LittleEndian.decode]
  | cons a vch ih =>
    rw [List.cons_append, LittleEndian.decode, ih, LittleEndian.decode, List.length_cons,
      Nat.pow_succ]
    ring

set_option maxRecDepth 2000 in
theorem and_0x80 (b : UInt8) : b &&& 0x80 ≠ 0 ↔ 128 ≤ b.toNat := by
  have h : ∀ x : Fin 256, UInt8.ofFin x &&& 0x80 ≠ 0 ↔ 128 ≤ x.val := by decide
  exact h b.toFin

/-- A number of at most four bytes. -/
def InRange (value : ℤ) : Prop := -2 ^ 31 < value ∧ value < 2 ^ 31

theorem setVch_inRange {vch : Bytes} (h : vch.length ≤ 4) : InRange (setVch vch) := by
  cases vch using List.reverseRecOn with
  | nil => exact ⟨by decide, by decide⟩
  | append_singleton vch b =>
    have hlow := LittleEndian.decode_lt vch
    have hb := b.toNat_lt
    rw [List.length_append, List.length_singleton] at h
    have hpow : 256 ^ vch.length ≤ 256 ^ 3 := Nat.pow_le_pow_right (by decide) (by omega)
    have hvalue : (LittleEndian.decode (vch ++ [b]) : ℤ) =
        LittleEndian.decode vch + b.toNat * 256 ^ vch.length := by
      rw [decode_concat]
      push_cast
      rfl
    unfold setVch
    rw [List.getLast?_concat, List.length_append, List.length_singleton, Nat.add_sub_cancel,
      hvalue]
    generalize LittleEndian.decode vch = low at hlow
    have hcast : ((256 ^ vch.length : ℕ) : ℤ) = 256 ^ vch.length := by push_cast; rfl
    rw [← hcast]
    generalize 256 ^ vch.length = weight at hlow hpow
    dsimp only
    split
    · rename_i hsign
      rw [and_0x80] at hsign
      have hle : b.toNat * weight ≤ 255 * weight := Nat.mul_le_mul_right _ (by omega)
      have hge : 128 * weight ≤ b.toNat * weight := Nat.mul_le_mul_right _ hsign
      constructor <;> push_cast <;> omega
    · rename_i hsign
      rw [and_0x80, Nat.not_le] at hsign
      have hle : b.toNat * weight ≤ 127 * weight := Nat.mul_le_mul_right _ (by omega)
      constructor <;> push_cast <;> omega

theorem ofVch_spec (fRequireMinimal : Bool) (vch : Bytes) :
    Ensures (ofVch fRequireMinimal vch) InRange (Stop.Proper fRequireMinimal) := by
  unfold ofVch
  split
  · rename_i hlong
    exact ensures_error (Or.inl hlong)
  · rename_i hlong
    split
    · rename_i hmin
      exact ensures_error (Or.inr ⟨hmin.1, by simpa using hmin.2⟩)
    · exact ensures_ok (setVch_inRange (Nat.le_of_not_lt hlong))

theorem length_magnitude_le (turns absvalue : ℕ) :
    (ScriptNum.magnitude turns absvalue).length ≤ turns := by
  induction turns generalizing absvalue with
  | zero => exact Nat.le_refl 0
  | succ turns ih =>
    unfold ScriptNum.magnitude
    split
    · exact Nat.zero_le _
    · exact Nat.succ_le_succ (ih _)

theorem length_serialize_le (value : ℤ) :
    (ScriptNum.serialize value).length ≤ maxScriptElementSize := by
  have hlen := length_magnitude_le 8 value.natAbs
  unfold ScriptNum.serialize
  dsimp only
  generalize ScriptNum.magnitude 8 value.natAbs = result at hlen
  have hmax : maxScriptElementSize = 520 := rfl
  split
  · exact Nat.zero_le _
  · split
    · rw [List.length_append, List.length_singleton]
      omega
    · split
      · rw [List.length_append, List.length_dropLast, List.length_singleton]
        omega
      · omega

end CScriptNum

theorem length_ofBool_le (f : Bool) : (ofBool f).length ≤ maxScriptElementSize := by
  cases f <;> decide

/-! Opcodes that act on the main stack only. -/

section Rules

variable {α : Type} {Q : α → Prop} {fRequireMinimal : Bool}

theorem ensures_serror {serror : ScriptError} (h : serror ≠ .unknownError) :
    Ensures (.error (.error serror) : Exec α) Q (Stop.Proper fRequireMinimal) :=
  ensures_error h

theorem ensures_needs {n : ℕ} {stack : List Bytes} {f : Exec α}
    (h : n ≤ stack.length → Ensures f Q (Stop.Proper fRequireMinimal)) :
    Ensures ((needs n stack).bind fun _ => f) Q (Stop.Proper fRequireMinimal) := by
  unfold needs
  split
  · exact ensures_serror (by decide)
  · rename_i hlen
    exact h (Nat.le_of_not_lt hlen)

theorem ensures_ofVch {vch : Bytes} {f : ℤ → Exec α}
    (h : ∀ bn, CScriptNum.InRange bn → Ensures (f bn) Q (Stop.Proper fRequireMinimal)) :
    Ensures ((CScriptNum.ofVch fRequireMinimal vch).bind f) Q (Stop.Proper fRequireMinimal) :=
  (CScriptNum.ofVch_spec fRequireMinimal vch).bind h

theorem stacktop_succ {stack : List Bytes} {i : ℕ} (h : i < stack.length) :
    stacktop stack (i + 1) = .ok stack[i] := by
  simp only [stacktop, List.getElem?_eq_getElem h]

end Rules

/-- An opcode of the table takes its new elements from the stack, or they are short. -/
def SafeOp (fRequireMinimal : Bool) (f : List Bytes → Exec (List Bytes)) : Prop :=
  ∀ stack, Ensures (f stack) (Within stack) (Stop.Proper fRequireMinimal)

section StackOps

variable {fRequireMinimal : Bool}

theorem verify_safe : SafeOp fRequireMinimal verify := by
  intro stack
  apply ensures_needs
  intro h
  match stack, h with
  | vch :: stack, _ =>
    change Ensures (if castToBool vch then Except.ok stack else _) _ _
    split
    · exact ensures_ok (Within.of_subset (List.subset_cons_self _ _))
    · exact ensures_serror (by decide)

theorem twoDrop_safe : SafeOp fRequireMinimal twoDrop := by
  intro stack
  apply ensures_needs
  intro h
  match stack, h with
  | _ :: _ :: stack, _ => exact ensures_ok (Within.of_subset (by simp))

theorem twoDup_safe : SafeOp fRequireMinimal twoDup := by
  intro stack
  apply ensures_needs
  intro h
  match stack, h with
  | _ :: _ :: stack, _ => exact ensures_ok (Within.of_subset (by simp))

theorem threeDup_safe : SafeOp fRequireMinimal threeDup := by
  intro stack
  apply ensures_needs
  intro h
  match stack, h with
  | _ :: _ :: _ :: stack, _ => exact ensures_ok (Within.of_subset (by simp))

theorem twoOver_safe : SafeOp fRequireMinimal twoOver := by
  intro stack
  apply ensures_needs
  intro h
  match stack, h with
  | _ :: _ :: _ :: _ :: stack, _ => exact ensures_ok (Within.of_subset (by simp))

theorem twoRot_safe : SafeOp fRequireMinimal twoRot := by
  intro stack
  apply ensures_needs
  intro h
  match stack, h with
  | a :: b :: c :: d :: e :: f :: stack, _ =>
    have hin : 2 ≤ 6 ∧ 6 ≤ (a :: b :: c :: d :: e :: f :: stack).length := by simp
    have herase : eraseTop (a :: b :: c :: d :: e :: f :: stack) 6 2 =
        .ok (a :: b :: c :: d :: stack) := if_pos hin
    change Ensures ((eraseTop (a :: b :: c :: d :: e :: f :: stack) 6 2).bind
      fun stack => .ok (e :: f :: stack)) _ _
    rw [herase]
    apply ensures_ok
    apply Within.of_subset
    intro v hv
    simp only [List.mem_cons] at hv ⊢
    tauto

theorem twoSwap_safe : SafeOp fRequireMinimal twoSwap := by
  intro stack
  apply ensures_needs
  intro h
  match stack, h with
  | a :: b :: c :: d :: stack, _ =>
    change Ensures (.ok (c :: d :: a :: b :: stack)) _ _
    apply ensures_ok
    apply Within.of_subset
    intro v hv
    simp only [List.mem_cons] at hv ⊢
    tauto

theorem ifDup_safe : SafeOp fRequireMinimal ifDup := by
  intro stack
  apply ensures_needs
  intro h
  match stack, h with
  | vch :: stack, _ =>
    change Ensures (.ok (if castToBool vch then vch :: vch :: stack else vch :: stack)) _ _
    split
    · exact ensures_ok (Within.of_subset (by simp))
    · exact ensures_ok (Within.refl _)

theorem depth_safe : SafeOp fRequireMinimal depth := fun stack =>
  ensures_ok ((Within.refl stack).cons (Or.inr (CScriptNum.length_serialize_le _)))

theorem drop_safe : SafeOp fRequireMinimal drop := by
  intro stack
  apply ensures_needs
  intro h
  match stack, h with
  | _ :: stack, _ => exact ensures_ok (Within.of_subset (by simp))

theorem dup_safe : SafeOp fRequireMinimal dup := by
  intro stack
  apply ensures_needs
  intro h
  match stack, h with
  | _ :: stack, _ => exact ensures_ok (Within.of_subset (by simp))

theorem nip_safe : SafeOp fRequireMinimal nip := by
  intro stack
  apply ensures_needs
  intro h
  match stack, h with
  | a :: b :: stack, _ =>
    have herase : eraseTop (a :: b :: stack) 2 1 = .ok (a :: stack) := if_pos (by simp)
    rw [herase]
    exact ensures_ok (Within.of_subset (by simp))

theorem overTop_safe : SafeOp fRequireMinimal overTop := by
  intro stack
  apply ensures_needs
  intro h
  match stack, h with
  | _ :: _ :: stack, _ => exact ensures_ok (Within.of_subset (by simp))

theorem rot_safe : SafeOp fRequireMinimal rot := by
  intro stack
  apply ensures_needs
  intro h
  match stack, h with
  | a :: b :: c :: stack, _ =>
    change Ensures (.ok (c :: a :: b :: stack)) _ _
    apply ensures_ok
    apply Within.of_subset
    intro v hv
    simp only [List.mem_cons] at hv ⊢
    tauto

theorem swap_safe : SafeOp fRequireMinimal swap := by
  intro stack
  apply ensures_needs
  intro h
  match stack, h with
  | _ :: _ :: stack, _ => exact ensures_ok (Within.of_subset (by simp))

theorem tuck_safe : SafeOp fRequireMinimal tuck := by
  intro stack
  apply ensures_needs
  intro h
  match stack, h with
  | a :: b :: stack, _ =>
    have hinsert : insertTop (a :: b :: stack) 2 a = .ok (a :: b :: a :: stack) :=
      if_pos (by simp)
    change Ensures (insertTop (a :: b :: stack) 2 a) _ _
    rw [hinsert]
    exact ensures_ok (Within.of_subset (by simp))

theorem size_safe : SafeOp fRequireMinimal size := by
  intro stack
  apply ensures_needs
  intro h
  match stack, h with
  | _ :: stack, _ =>
    exact ensures_ok ((Within.refl _).cons (Or.inr (CScriptNum.length_serialize_le _)))

theorem toInt32_le (n : ℕ) : toInt32 n ≤ n := by
  have h := Int.bmod_le (x := (n : ℤ)) (m := 2 ^ 32) (by decide)
  unfold toInt32
  rw [Int.bmod_def]
  split <;> omega

/-- The number read from the stack is a position of it. -/
theorem pickOrRoll_safe (roll : Bool) :
    SafeOp fRequireMinimal (pickOrRoll fRequireMinimal roll) := by
  intro stack
  apply ensures_needs
  intro h
  match stack, h with
  | top :: stack, _ =>
    change Ensures ((CScriptNum.ofVch fRequireMinimal top).bind _) _ _
    apply ensures_ofVch
    intro bn _
    change Ensures (if CScriptNum.getInt bn < 0 ∨ toInt32 stack.length ≤ CScriptNum.getInt bn
      then _ else _) _ _
    split
    · exact ensures_serror (by decide)
    · rename_i hn
      have hle := toInt32_le stack.length
      have hlt : (CScriptNum.getInt bn).toNat < stack.length := by omega
      rw [stacktop_succ hlt]
      generalize (CScriptNum.getInt bn).toNat = n at hlt
      have hmem : stack[n] ∈ top :: stack := List.mem_cons_of_mem _ (List.getElem_mem hlt)
      have hroll : ∃ rest, rollOut roll stack (n + 1) = .ok rest ∧ rest ⊆ stack := by
        unfold rollOut
        split
        · refine ⟨_, if_pos (by omega), ?_⟩
          exact List.append_subset.2 ⟨List.take_subset _ _, List.drop_subset _ _⟩
        · exact ⟨stack, rfl, List.Subset.refl _⟩
      obtain ⟨rest, hrest, hsub⟩ := hroll
      change Ensures ((rollOut roll stack (n + 1)).bind fun stack' => .ok (stack[n] :: stack')) _ _
      rw [hrest]
      exact ensures_ok (Within.cons (Within.of_subset fun v hv =>
        List.mem_cons_of_mem _ (hsub hv)) (Or.inl hmem))

theorem verified_safe {serror : ScriptError} (h : serror ≠ .unknownError) (f : Bool)
    (vch : Bytes) (stack : List Bytes) :
    Ensures (verified serror f (vch :: stack)) (· = stack) (Stop.Proper fRequireMinimal) := by
  unfold verified
  split
  · exact ensures_ok rfl
  · exact ensures_serror h

theorem equal_safe (thenVerify : Bool) : SafeOp fRequireMinimal (equal thenVerify) := by
  intro stack
  apply ensures_needs
  intro h
  match stack, h with
  | vch2 :: vch1 :: stack, _ =>
    change Ensures (if thenVerify then
      verified .equalVerify (decide (vch1 = vch2)) (ofBool (decide (vch1 = vch2)) :: stack)
      else .ok (ofBool (decide (vch1 = vch2)) :: stack)) _ _
    have hrest : Within (vch2 :: vch1 :: stack) stack := Within.of_subset (by simp)
    split
    · exact (verified_safe (by decide) _ _ stack).mono (fun s hs => hs ▸ hrest) fun _ h => h
    · exact ensures_ok (hrest.cons (Or.inr (length_ofBool_le _)))

theorem unary_safe {f : ℤ → Exec ℤ}
    (hf : ∀ bn, CScriptNum.InRange bn → ∃ value, f bn = .ok value) :
    SafeOp fRequireMinimal (unary fRequireMinimal f) := by
  intro stack
  apply ensures_needs
  intro h
  match stack, h with
  | top :: stack, _ =>
    change Ensures ((CScriptNum.ofVch fRequireMinimal top).bind _) _ _
    apply ensures_ofVch
    intro bn hbn
    obtain ⟨value, hvalue⟩ := hf bn hbn
    change Ensures ((f bn).bind _) _ _
    rw [hvalue]
    exact ensures_ok (Within.cons (Within.of_subset (List.subset_cons_self _ _))
      (Or.inr (CScriptNum.length_serialize_le _)))

/-- The result stands in the place of the two numbers. -/
theorem binary_spec {f : ℤ → ℤ → Exec ℤ}
    (hf : ∀ bn1 bn2, CScriptNum.InRange bn1 → CScriptNum.InRange bn2 →
      ∃ value, f bn1 bn2 = .ok value) (stack : List Bytes) :
    Ensures (binary fRequireMinimal f stack)
      (fun new => ∃ value rest, new = ScriptNum.serialize value :: rest ∧ rest ⊆ stack)
      (Stop.Proper fRequireMinimal) := by
  apply ensures_needs
  intro h
  match stack, h with
  | vch2 :: vch1 :: stack, _ =>
    change Ensures ((CScriptNum.ofVch fRequireMinimal vch1).bind _) _ _
    apply ensures_ofVch
    intro bn1 hbn1
    change Ensures ((CScriptNum.ofVch fRequireMinimal vch2).bind _) _ _
    apply ensures_ofVch
    intro bn2 hbn2
    obtain ⟨value, hvalue⟩ := hf bn1 bn2 hbn1 hbn2
    change Ensures ((f bn1 bn2).bind _) _ _
    rw [hvalue]
    exact ensures_ok ⟨value, stack, rfl, by simp⟩

theorem binary_safe {f : ℤ → ℤ → Exec ℤ}
    (hf : ∀ bn1 bn2, CScriptNum.InRange bn1 → CScriptNum.InRange bn2 →
      ∃ value, f bn1 bn2 = .ok value) :
    SafeOp fRequireMinimal (binary fRequireMinimal f) := by
  intro stack
  refine (binary_spec hf stack).mono ?_ fun _ h => h
  intro new ⟨value, rest, hnew, hrest⟩
  subst hnew
  exact (Within.of_subset hrest).cons (Or.inr (CScriptNum.length_serialize_le _))

theorem ofProp_ok (p : Prop) [Decidable p] : ∃ value, ofProp p = .ok value := ⟨_, rfl⟩

theorem numEqualVerify_safe : SafeOp fRequireMinimal (numEqualVerify fRequireMinimal) := by
  intro stack
  refine (binary_spec (fun bn1 bn2 _ _ => ⟨_, rfl⟩) stack).bind ?_
  intro new ⟨value, rest, hnew, hrest⟩
  subst hnew
  exact (verified_safe (by decide) _ _ rest).mono
    (fun s hs => hs ▸ Within.of_subset hrest) fun _ h => h

theorem within_safe : SafeOp fRequireMinimal (within fRequireMinimal) := by
  intro stack
  apply ensures_needs
  intro h
  match stack, h with
  | vch3 :: vch2 :: vch1 :: stack, _ =>
    change Ensures ((CScriptNum.ofVch fRequireMinimal vch1).bind _) _ _
    apply ensures_ofVch
    intro bn1 _
    change Ensures ((CScriptNum.ofVch fRequireMinimal vch2).bind _) _ _
    apply ensures_ofVch
    intro bn2 _
    change Ensures ((CScriptNum.ofVch fRequireMinimal vch3).bind _) _ _
    apply ensures_ofVch
    intro bn3 _
    have hrest : Within (vch3 :: vch2 :: vch1 :: stack) stack :=
      Within.of_subset (List.subset_append_right [vch3, vch2, vch1] stack)
    exact ensures_ok (hrest.cons (Or.inr (length_ofBool_le _)))

theorem hashTop_safe {hash : Bytes → Bytes}
    (hlen : ∀ vch, (hash vch).length ≤ maxScriptElementSize) :
    SafeOp fRequireMinimal (hashTop hash) := by
  intro stack
  apply ensures_needs
  intro h
  match stack, h with
  | vch :: stack, _ =>
    exact ensures_ok (Within.cons (Within.of_subset (List.subset_cons_self _ _))
      (Or.inr (hlen vch)))

theorem addAssign_one_ok {bn : ℤ} (h : CScriptNum.InRange bn) :
    ∃ value, CScriptNum.addAssign bn 1 = .ok value := by
  unfold CScriptNum.InRange at h
  have hmax : CScriptNum.int64Max = 2 ^ 63 - 1 := rfl
  exact ⟨bn + 1, if_pos (Or.inr (Or.inl ⟨by decide, by omega⟩))⟩

theorem subAssign_one_ok {bn : ℤ} (h : CScriptNum.InRange bn) :
    ∃ value, CScriptNum.subAssign bn 1 = .ok value := by
  unfold CScriptNum.InRange at h
  have hmin : CScriptNum.int64Min = -2 ^ 63 := rfl
  exact ⟨bn - 1, if_pos (Or.inr (Or.inl ⟨by decide, by omega⟩))⟩

theorem neg_ok {bn : ℤ} (h : CScriptNum.InRange bn) :
    ∃ value, CScriptNum.neg bn = .ok value := by
  unfold CScriptNum.InRange at h
  have hmin : CScriptNum.int64Min = -2 ^ 63 := rfl
  exact ⟨-bn, if_pos (by omega)⟩

theorem abs_ok {bn : ℤ} (h : CScriptNum.InRange bn) :
    ∃ value, (if bn < 0 then CScriptNum.neg bn else .ok bn) = Except.ok (ε := Stop) value := by
  split
  · exact neg_ok h
  · exact ⟨bn, rfl⟩

/-- Sums and differences of two numbers of four bytes are far from the limits. -/
theorem ofInt_ok {value : ℤ} (h : -2 ^ 32 < value ∧ value < 2 ^ 32) :
    ∃ value', CScriptNum.ofInt value = .ok value' := by
  have hmin : CScriptNum.int64Min = -2 ^ 63 := rfl
  have hmax : CScriptNum.int64Max = 2 ^ 63 - 1 := rfl
  exact ⟨value, if_pos (by omega)⟩

theorem add_ok {bn1 bn2 : ℤ} (h1 : CScriptNum.InRange bn1) (h2 : CScriptNum.InRange bn2) :
    ∃ value, CScriptNum.ofInt (bn1 + bn2) = .ok value := by
  unfold CScriptNum.InRange at h1 h2
  exact ofInt_ok (by omega)

theorem sub_ok {bn1 bn2 : ℤ} (h1 : CScriptNum.InRange bn1) (h2 : CScriptNum.InRange bn2) :
    ∃ value, CScriptNum.ofInt (bn1 - bn2) = .ok value := by
  unfold CScriptNum.InRange at h1 h2
  exact ofInt_ok (by omega)

theorem unary_ofProp_safe (p : ℤ → Prop) [DecidablePred p] :
    SafeOp fRequireMinimal (unary fRequireMinimal fun bn => ofProp (p bn)) :=
  unary_safe fun _ _ => ofProp_ok _

theorem binary_ofProp_safe (p : ℤ → ℤ → Prop) [∀ bn1 bn2, Decidable (p bn1 bn2)] :
    SafeOp fRequireMinimal (binary fRequireMinimal fun bn1 bn2 => ofProp (p bn1 bn2)) :=
  binary_safe fun _ _ _ _ => ofProp_ok _

/-- Every opcode of the table, in its order. -/
theorem stackOps_safe (hashes : Hashes) :
    (stackOps hashes fRequireMinimal).Forall fun p => SafeOp fRequireMinimal p.2 := by
  have h20 : 20 ≤ maxScriptElementSize := by decide
  have h32 : 32 ≤ maxScriptElementSize := by decide
  exact ⟨verify_safe, twoDrop_safe, twoDup_safe, threeDup_safe, twoOver_safe, twoRot_safe,
    twoSwap_safe, ifDup_safe, depth_safe, drop_safe, dup_safe, nip_safe, overTop_safe,
    pickOrRoll_safe false, pickOrRoll_safe true, rot_safe, swap_safe, tuck_safe, size_safe,
    equal_safe false, equal_safe true, unary_safe fun _ => addAssign_one_ok,
    unary_safe fun _ => subAssign_one_ok, unary_safe fun _ => neg_ok, unary_safe fun _ => abs_ok,
    unary_ofProp_safe _, unary_ofProp_safe _, binary_safe fun _ _ => add_ok,
    binary_safe fun _ _ => sub_ok, binary_ofProp_safe _, binary_ofProp_safe _,
    binary_ofProp_safe _, numEqualVerify_safe, binary_ofProp_safe _, binary_ofProp_safe _,
    binary_ofProp_safe _, binary_ofProp_safe _, binary_ofProp_safe _,
    binary_safe fun _ _ _ _ => ⟨_, rfl⟩, binary_safe fun _ _ _ _ => ⟨_, rfl⟩, within_safe,
    hashTop_safe fun vch => (hashes.length_ripemd160 vch).trans_le h20,
    hashTop_safe fun vch => (hashes.length_sha1 vch).trans_le h20,
    hashTop_safe fun vch => (hashes.length_sha256 vch).trans_le h32,
    hashTop_safe fun vch => (hashes.length_hash160 vch).trans_le h20,
    hashTop_safe fun vch => (hashes.length_hash256 vch).trans_le h32⟩

theorem lookup_safe {hashes : Hashes} {opcode : UInt8} {f : List Bytes → Exec (List Bytes)}
    (h : (stackOps hashes fRequireMinimal).lookup opcode = some f) :
    SafeOp fRequireMinimal f := by
  obtain ⟨before, after, hsplit, _⟩ := List.lookup_eq_some_iff.1 h
  have hmem : (opcode, f) ∈ stackOps hashes fRequireMinimal := by
    rw [hsplit]
    exact List.mem_append_right _ List.mem_cons_self
  exact List.forall_iff_forall_mem.1 (stackOps_safe hashes) _ hmem

end StackOps

/-! Opcodes that use more than the main stack. -/

def State.elements (s : State) : List Bytes := s.stack ++ s.altstack

/-- The opcode does not move on in the script, and its new elements are old ones or short. -/
def State.Follows (s s' : State) : Prop := s'.pc = s.pc ∧ Within s.elements s'.elements

theorem State.Follows.of_stack {s : State} {stack : List Bytes} (h : Within s.stack stack) :
    s.Follows { s with stack := stack } := by
  refine ⟨rfl, ?_⟩
  intro v hv
  cases List.mem_append.1 hv with
  | inl hstack => exact (h v hstack).imp_left (List.mem_append_left _)
  | inr halt => exact Or.inl (List.mem_append_right _ halt)

theorem State.Follows.of_elements {s s' : State} (hpc : s'.pc = s.pc)
    (h : s'.elements ⊆ s.elements) : s.Follows s' := ⟨hpc, Within.of_subset h⟩

theorem State.Follows.refl (s : State) : s.Follows s := ⟨rfl, Within.refl _⟩

section Checks

variable {ctx : Context} {s : State}

theorem stacktop_ok {stack : List Bytes} {i : ℕ} (hpos : 1 ≤ i) (h : i ≤ stack.length) :
    ∃ vch ∈ stack, stacktop stack i = .ok vch := by
  cases i with
  | zero => omega
  | succ i => exact ⟨stack[i], List.getElem_mem h, stacktop_succ h⟩

theorem popMany_ok {n : ℕ} {stack : List Bytes} (h : n ≤ stack.length) :
    popMany n stack = .ok (stack.drop n) := by
  induction n generalizing stack with
  | zero => rfl
  | succ n ih =>
    match stack, h with
    | _ :: stack, h => exact ih (Nat.le_of_succ_le_succ h)

theorem isLowDERSignature_proper (vchSig : Bytes) :
    Ensures (isLowDERSignature vchSig) (fun _ => True) (· ≠ .unknownError) := by
  unfold isLowDERSignature
  split
  · exact ensures_error (by decide)
  · dsimp only
    split
    · exact ensures_ok trivial
    · exact ensures_error (by decide)

theorem checkSignatureEncoding_proper (vchSig : Bytes) (flags : BitVec 32) :
    Ensures (checkSignatureEncoding vchSig flags) (fun _ => True) (· ≠ .unknownError) := by
  unfold checkSignatureEncoding
  split
  · exact ensures_ok trivial
  · split
    · exact ensures_error (by decide)
    · have hhash : Ensures (if hasFlag flags scriptVerifyStrictEnc ∧
          !isDefinedHashtypeSignature vchSig then .error .sigHashType else .ok ())
          (fun _ => True) (· ≠ ScriptError.unknownError) := by
        split
        · exact ensures_error (by decide)
        · exact ensures_ok trivial
      dsimp only
      split
      · exact (isLowDERSignature_proper vchSig).bind fun _ _ => hhash
      · exact hhash

theorem checkPubKeyEncoding_proper (vchPubKey : Bytes) (flags : BitVec 32) :
    Ensures (checkPubKeyEncoding vchPubKey flags) (fun _ => True) (· ≠ .unknownError) := by
  unfold checkPubKeyEncoding
  split
  · exact ensures_error (by decide)
  · exact ensures_ok trivial

theorem checkEncodings_proper (vchSig vchPubKey : Bytes) :
    Ensures (checkEncodings ctx vchSig vchPubKey) (fun _ => True)
      (Stop.Proper ctx.fRequireMinimal) := by
  unfold checkEncodings
  have hsig := checkSignatureEncoding_proper vchSig ctx.flags
  have hkey := checkPubKeyEncoding_proper vchPubKey ctx.flags
  split
  · rename_i heq
    exact ensures_serror (hsig.of_error heq)
  · split
    · rename_i heq
      exact ensures_serror (hkey.of_error heq)
    · exact ensures_ok trivial

theorem pushVerdict_safe (thenVerify : Bool) {serror : ScriptError} (h : serror ≠ .unknownError)
    (fSuccess : Bool) (stack : List Bytes) :
    Ensures (pushVerdict thenVerify serror fSuccess stack) (Within stack)
      (Stop.Proper ctx.fRequireMinimal) := by
  unfold pushVerdict
  dsimp only
  split
  · exact (verified_safe h fSuccess _ stack).mono (fun s hs => hs ▸ Within.refl stack)
      fun _ h => h
  · exact ensures_ok ((Within.refl stack).cons (Or.inr (length_ofBool_le _)))

theorem after_spec {α β : Type} {Q : α → Prop} {R : β → Prop} {E : Stop → Prop} {x : Exec α}
    {f : α → Counted β} (hx : Ensures x Q E) (hf : ∀ a, Q a → Ensures (f a).2 R E) :
    Ensures (Counted.after x f).2 R E := by
  cases x with
  | error stop => exact ensures_error (hx.of_error rfl)
  | ok a => exact hf a (hx.of_ok rfl)

theorem checkSigArgs_safe :
    Ensures (checkSigArgs ctx s) (fun _ => 2 ≤ s.stack.length)
      (Stop.Proper ctx.fRequireMinimal) := by
  apply ensures_needs
  intro h
  obtain ⟨vchSig, _, hsig⟩ := stacktop_ok (i := 2) (by decide) h
  obtain ⟨vchPubKey, _, hkey⟩ := stacktop_ok (i := 1) (by decide) (by omega : 1 ≤ s.stack.length)
  rw [hsig, hkey]
  exact (checkEncodings_proper vchSig vchPubKey).bind fun _ _ => ensures_ok h

theorem opCheckSigs_safe (thenVerify : Bool) :
    Ensures (opCheckSigs ctx thenVerify s).2 (Within s.stack)
      (Stop.Proper ctx.fRequireMinimal) := by
  refine after_spec checkSigArgs_safe ?_
  intro (vchSig, vchPubKey, scriptCode) hlen
  dsimp only
  rw [popMany_ok hlen]
  exact (pushVerdict_safe thenVerify (by decide) _ _).mono
    (fun stack hstack => (Within.of_subset (List.drop_subset _ _)).trans hstack) fun _ h => h

theorem ensures_needsInt {α : Type} {Q : α → Prop} {i : ℕ} {stack : List Bytes} {f : Exec α}
    (h : i ≤ stack.length → Ensures f Q (Stop.Proper ctx.fRequireMinimal)) :
    Ensures ((needsInt i stack).bind fun _ => f) Q (Stop.Proper ctx.fRequireMinimal) := by
  unfold needsInt
  by_cases hlt : toInt32 stack.length < i
  · rw [if_pos hlt]
    exact ensures_serror (by decide)
  · rw [if_neg hlt]
    have hle := toInt32_le stack.length
    exact h (by omega)

/-- The arguments of a multisig check on a stack of this height. -/
structure MultisigArgs.Fits (args : MultisigArgs) (height : ℕ) : Prop where
  keys : args.nKeysCount ≤ 20
  sigs : args.nSigsCount ≤ args.nKeysCount
  ikey : args.ikey = 2
  isig : args.isig = args.nKeysCount + 3
  i : args.i = args.isig + args.nSigsCount
  height : args.i ≤ height

theorem multisigArgs_fits :
    Ensures (multisigArgs ctx s) (·.Fits s.stack.length) (Stop.Proper ctx.fRequireMinimal) := by
  unfold multisigArgs
  refine ensures_needsInt fun h1 => ?_
  obtain ⟨vchKeys, _, hkeys⟩ := stacktop_ok (Nat.le_refl 1) h1
  change Ensures ((stacktop s.stack 1).bind _) _ _
  rw [hkeys]
  apply ensures_ofVch
  intro bn _
  generalize CScriptNum.getInt bn = nKeys
  dsimp only
  split
  · exact ensures_serror (by decide)
  · rename_i hkeysRange
    split
    · exact ensures_serror (by decide)
    · refine ensures_needsInt fun h2 => ?_
      obtain ⟨vchSigs, _, hsigs⟩ := stacktop_ok (i := 2 + nKeys.toNat) (by omega) h2
      change Ensures ((stacktop s.stack (2 + nKeys.toNat)).bind _) _ _
      rw [hsigs]
      apply ensures_ofVch
      intro bn' _
      generalize CScriptNum.getInt bn' = nSigs
      split
      · exact ensures_serror (by decide)
      · rename_i hsigsRange
        refine ensures_needsInt fun h3 => ?_
        exact ensures_ok ⟨by dsimp only; omega, by dsimp only; omega, rfl, by dsimp only; omega,
          rfl, h3⟩

theorem dropSignatures_ok {stack : List Bytes} {n isig : ℕ} (scriptCode : CScript)
    (hpos : 1 ≤ isig) (h : isig + n ≤ stack.length + 1) :
    ∃ scriptCode', dropSignatures stack n isig scriptCode = .ok scriptCode' := by
  induction n generalizing isig scriptCode with
  | zero => exact ⟨scriptCode, rfl⟩
  | succ n ih =>
    obtain ⟨vchSig, _, hsig⟩ := stacktop_ok hpos (by omega : isig ≤ stack.length)
    rw [dropSignatures, hsig]
    exact ih _ (by omega) (by omega)

theorem readSigAndKey_safe {stack : List Bytes} {isig ikey : ℕ} (hsigpos : 1 ≤ isig)
    (hkeypos : 1 ≤ ikey) (hsig : isig ≤ stack.length) (hkey : ikey ≤ stack.length) :
    Ensures (readSigAndKey ctx stack isig ikey) (fun _ => True)
      (Stop.Proper ctx.fRequireMinimal) := by
  obtain ⟨vchSig, _, hvchSig⟩ := stacktop_ok hsigpos hsig
  obtain ⟨vchPubKey, _, hvchPubKey⟩ := stacktop_ok hkeypos hkey
  unfold readSigAndKey
  rw [hvchSig, hvchPubKey]
  exact (checkEncodings_proper vchSig vchPubKey).bind fun _ _ => ensures_ok trivial

variable (ctx) in
/-- The positions of signatures and keys stay below those where their counts end. -/
theorem matchSignatures_safe {stack : List Bytes} (scriptCode : CScript)
    {nKeysCount nSigsCount isig ikey : ℕ} (hsigpos : 1 ≤ isig) (hkeypos : 1 ≤ ikey)
    (hsig : isig + nSigsCount ≤ stack.length + 1) (hkey : ikey + nKeysCount ≤ stack.length + 1) :
    Ensures (matchSignatures ctx stack scriptCode nKeysCount nSigsCount isig ikey).2
      (fun _ => True) (Stop.Proper ctx.fRequireMinimal) := by
  induction nKeysCount generalizing nSigsCount isig ikey with
  | zero =>
    unfold matchSignatures
    split <;> exact ensures_ok trivial
  | succ nKeys ih =>
    unfold matchSignatures
    split
    · exact ensures_ok trivial
    · rename_i hne
      dsimp only
      split
      · exact ensures_ok trivial
      · refine after_spec (readSigAndKey_safe hsigpos hkeypos (by omega) (by omega)) ?_
        intro (vchSig, vchPubKey) _
        dsimp only
        split
        · exact ih (by omega) (by omega) (by omega) (by omega)
        · exact ih (by omega) (by omega) (by omega) (by omega)

theorem popArgs_safe {stack : List Bytes} {i : ℕ} (hpos : 1 ≤ i) (h : i ≤ stack.length) :
    Ensures (popArgs ctx i stack) (· ⊆ stack) (Stop.Proper ctx.fRequireMinimal) := by
  unfold popArgs
  rw [popMany_ok (by omega : i - 1 ≤ stack.length)]
  apply ensures_needs
  intro hlen
  have hsub := List.drop_subset (i - 1) stack
  generalize stack.drop (i - 1) = rest at hlen hsub
  match rest, hlen with
  | vch :: rest, _ =>
    change Ensures (if hasFlag ctx.flags scriptVerifyNullDummy ∧ vch.length ≠ 0 then _
      else Except.ok rest) _ _
    split
    · exact ensures_serror (by decide)
    · exact ensures_ok (List.Subset.trans (List.subset_cons_self _ _) hsub)

theorem multisigScriptCode_safe :
    Ensures (multisigScriptCode ctx s) (·.1.Fits s.stack.length)
      (Stop.Proper ctx.fRequireMinimal) := by
  refine multisigArgs_fits.monadBind fun args hfits => ?_
  have hi := hfits.i
  have hisig := hfits.isig
  have hheight := hfits.height
  obtain ⟨scriptCode, hdrop⟩ := dropSignatures_ok s.pbegincodehash
    (by omega : 1 ≤ args.isig) (by omega : args.isig + args.nSigsCount ≤ s.stack.length + 1)
  rw [hdrop]
  exact ensures_ok hfits

theorem opCheckMultisigs_safe (thenVerify : Bool) :
    Ensures (opCheckMultisigs ctx thenVerify s).2 s.Follows
      (Stop.Proper ctx.fRequireMinimal) := by
  refine after_spec multisigScriptCode_safe ?_
  intro (args, scriptCode) hfits
  have hi : args.i = args.isig + args.nSigsCount := hfits.i
  have hisig : args.isig = args.nKeysCount + 3 := hfits.isig
  have hikey : args.ikey = 2 := hfits.ikey
  have hheight : args.i ≤ s.stack.length := hfits.height
  have hmatch := matchSignatures_safe ctx scriptCode
    (by omega : 1 ≤ args.isig) (by omega : 1 ≤ args.ikey)
    (by omega : args.isig + args.nSigsCount ≤ s.stack.length + 1)
    (by omega : args.ikey + args.nKeysCount ≤ s.stack.length + 1)
  dsimp only
  generalize matchSignatures ctx s.stack scriptCode args.nKeysCount args.nSigsCount args.isig
    args.ikey = matched at hmatch
  refine Ensures.bind hmatch fun fSuccess _ => ?_
  refine (popArgs_safe (by omega) hheight).bind fun stack hstack => ?_
  exact (pushVerdict_safe thenVerify (by decide) fSuccess stack).map fun stack' hstack' =>
    State.Follows.of_stack ((Within.of_subset hstack).trans hstack')

theorem opIfs_safe (fExec negated : Bool) :
    Ensures (opIfs fExec negated s) s.Follows (Stop.Proper ctx.fRequireMinimal) := by
  unfold opIfs
  split
  · split
    · exact ensures_serror (by decide)
    · rename_i hlen
      match hstack : s.stack, hlen with
      | vch :: stack, _ =>
        refine ensures_ok (State.Follows.of_elements rfl ?_)
        rw [State.elements, State.elements, hstack]
        exact List.subset_cons_self _ _
  · exact ensures_ok (State.Follows.refl s)

theorem toAltStack_safe :
    Ensures (toAltStack s) s.Follows (Stop.Proper ctx.fRequireMinimal) := by
  apply ensures_needs
  intro hlen
  match hstack : s.stack, hlen with
  | vch :: stack, _ =>
    refine ensures_ok (State.Follows.of_elements rfl ?_)
    rw [State.elements, State.elements, hstack]
    intro v hv
    simp only [List.mem_append, List.mem_cons] at hv ⊢
    tauto

theorem fromAltStack_safe :
    Ensures (fromAltStack s) s.Follows (Stop.Proper ctx.fRequireMinimal) := by
  unfold fromAltStack
  split
  · exact ensures_serror (by decide)
  · rename_i hlen
    match halt : s.altstack, hlen with
    | vch :: altstack, _ =>
      refine ensures_ok (State.Follows.of_elements rfl ?_)
      rw [State.elements, State.elements, halt]
      intro v hv
      simp only [List.mem_append, List.mem_cons] at hv ⊢
      tauto

theorem Follows.of_safeOp {f : List Bytes → Exec (List Bytes)}
    (h : SafeOp ctx.fRequireMinimal f) :
    Ensures ((f s.stack).map fun stack => { s with stack := stack }) s.Follows
      (Stop.Proper ctx.fRequireMinimal) :=
  (h s.stack).map fun _ hstack => State.Follows.of_stack hstack

theorem ite_spec {α : Type} {Q : α → Prop} {E : Stop → Prop} {p : Prop} [Decidable p]
    {a b : Counted α} (ha : p → Ensures a.2 Q E) (hb : ¬p → Ensures b.2 Q E) :
    Ensures (if p then a else b).2 Q E := by
  split
  · exact ha ‹p›
  · exact hb ‹¬p›

theorem opNops_safe :
    Ensures (if hasFlag ctx.flags scriptVerifyDiscourageUpgradableNops then
      (0, .error (.error .discourageUpgradableNops)) else (0, .ok s) : Counted State).2 s.Follows
      (Stop.Proper ctx.fRequireMinimal) :=
  ite_spec (fun _ => ensures_serror (by decide)) fun _ => ensures_ok (State.Follows.refl s)

/-- Every case of the switch, in its order. -/
theorem execute_safe (fExec : Bool) (opcode : UInt8) :
    Ensures (execute ctx fExec opcode s).2 s.Follows (Stop.Proper ctx.fRequireMinimal) := by
  unfold execute
  refine ite_spec (fun _ => ?_) fun _ => ?_
  · exact ensures_ok (State.Follows.of_stack ((Within.refl _).cons
      (Or.inr (CScriptNum.length_serialize_le _))))
  refine ite_spec (fun _ => ensures_ok (State.Follows.refl s)) fun _ => ?_
  refine ite_spec (fun _ => opNops_safe) fun _ => ?_
  refine ite_spec (fun _ => opIfs_safe fExec _) fun _ => ?_
  refine ite_spec (fun _ => ?_) fun _ => ?_
  · match s.vfExec with
    | [] => exact ensures_serror (by decide)
    | _ :: _ => exact ensures_ok (State.Follows.refl s)
  refine ite_spec (fun _ => ?_) fun _ => ?_
  · match s.vfExec with
    | [] => exact ensures_serror (by decide)
    | _ :: _ => exact ensures_ok (State.Follows.refl s)
  refine ite_spec (fun _ => ensures_serror (by decide)) fun _ => ?_
  refine ite_spec (fun _ => toAltStack_safe) fun _ => ?_
  refine ite_spec (fun _ => fromAltStack_safe) fun _ => ?_
  refine ite_spec (fun _ => ensures_ok (State.Follows.refl s)) fun _ => ?_
  refine ite_spec (fun _ => ?_) fun _ => ?_
  · exact (opCheckSigs_safe _).map fun _ h => State.Follows.of_stack h
  refine ite_spec (fun _ => opCheckMultisigs_safe _) fun _ => ?_
  match hlookup : (stackOps ctx.hashes ctx.fRequireMinimal).lookup opcode with
  | some f => exact Follows.of_safeOp (lookup_safe hlookup)
  | none => exact ensures_serror (by decide)

/-- Every opcode that is read is at least one byte of the script, and pushes are short. -/
theorem readInstruction_safe (hpc : s.pc ≠ []) :
    Ensures (readInstruction s)
      (fun r => r.2.1.length ≤ maxScriptElementSize ∧ r.2.2.pc.length < s.pc.length ∧
        r.2.2.elements = s.elements) (Stop.Proper ctx.fRequireMinimal) := by
  unfold readInstruction
  dsimp only
  split
  · exact ensures_serror (by decide)
  · split
    · exact ensures_serror (by decide)
    · rename_i hsize
      generalize (if op16 < (getOp2 s.pc).opcode then s.nOpCount + 1 else s.nOpCount) = nOpCount
      split
      · exact ensures_serror (by decide)
      · split
        · exact ensures_serror (by decide)
        · exact ensures_ok ⟨Nat.le_of_not_lt hsize, length_getOp2_lt hpc, rfl⟩

theorem perform_safe (opcode : UInt8) {vchPushValue : Bytes}
    (hsize : vchPushValue.length ≤ maxScriptElementSize) :
    Ensures (perform ctx opcode vchPushValue s).2 s.Follows
      (Stop.Proper ctx.fRequireMinimal) := by
  unfold perform
  split
  · split
    · exact ensures_serror (by decide)
    · exact ensures_ok (State.Follows.of_stack ((Within.refl _).cons (Or.inr hsize)))
  · split
    · exact execute_safe _ opcode
    · exact ensures_ok (State.Follows.refl s)

/-- What a turn of the loop leaves. -/
structure State.Steps (s s' : State) : Prop where
  pc : s'.pc.length < s.pc.length
  elements : Within s.elements s'.elements
  size : s'.stack.length + s'.altstack.length ≤ 1000

theorem sizeLimit_safe {s₁ : State} (hpc : s₁.pc.length < s.pc.length)
    (helements : Within s.elements s₁.elements) :
    Ensures (sizeLimit s₁) s.Steps (Stop.Proper ctx.fRequireMinimal) := by
  unfold sizeLimit
  split
  · exact ensures_serror (by decide)
  · rename_i hsize
    exact ensures_ok ⟨hpc, helements, Nat.le_of_not_lt hsize⟩

theorem step_safe (hpc : s.pc ≠ []) :
    Ensures (step ctx s).2 s.Steps (Stop.Proper ctx.fRequireMinimal) := by
  refine after_spec (readInstruction_safe hpc) ?_
  intro (opcode, vchPushValue, s₀) ⟨hsize, hlt, helements⟩
  refine (perform_safe (s := s₀) opcode hsize).bind fun s₁ hfollows => ?_
  refine sizeLimit_safe (hfollows.1 ▸ hlt) ?_
  exact helements ▸ hfollows.2

end Checks

/-! Runs. -/

section Runs

variable {ctx : Context} {s s' : State}

/-- A turn of the loop that does not stop. -/
def Turn (ctx : Context) (s s' : State) : Prop := s.pc ≠ [] ∧ (step ctx s).2 = .ok s'

def Reaches (ctx : Context) : State → State → Prop := Relation.ReflTransGen (Turn ctx)

theorem Turn.steps (h : Turn ctx s s') : s.Steps s' := (step_safe h.1).of_ok h.2

theorem Reaches.within (h : Reaches ctx s s') : Within s.elements s'.elements := by
  induction h with
  | refl => exact Within.refl _
  | tail _ hturn ih => exact ih.trans hturn.steps.elements

variable (ctx) in
/-- The loop ends, at the end of the script or where a step stops. -/
theorem evalLoop_reaches {turns : ℕ} (h : s.pc.length ≤ turns) :
    ∃ s', Reaches ctx s s' ∧ ((s'.pc = [] ∧ (evalLoop ctx turns s).2 = .ok s') ∨
      ∃ stop, s'.pc ≠ [] ∧ (step ctx s').2 = .error stop ∧
        (evalLoop ctx turns s).2 = .error stop) := by
  induction turns generalizing s with
  | zero =>
    have hnil : s.pc = [] := List.eq_nil_of_length_eq_zero (Nat.le_zero.1 h)
    refine ⟨s, Relation.ReflTransGen.refl, Or.inl ⟨hnil, ?_⟩⟩
    rw [evalLoop, if_pos hnil]
  | succ turns ih =>
    by_cases hnil : s.pc = []
    · refine ⟨s, Relation.ReflTransGen.refl, Or.inl ⟨hnil, ?_⟩⟩
      rw [evalLoop, if_pos hnil]
    · rw [evalLoop, if_neg hnil]
      match hstep : step ctx s with
      | (calls, .error stop) =>
        exact ⟨s, Relation.ReflTransGen.refl,
          Or.inr ⟨stop, hnil, congrArg Prod.snd hstep, rfl⟩⟩
      | (calls, .ok s₁) =>
        have hturn : Turn ctx s s₁ := ⟨hnil, congrArg Prod.snd hstep⟩
        have hlt := hturn.steps.pc
        obtain ⟨s', hreach, hend⟩ := ih (s := s₁) (by omega)
        exact ⟨s', Relation.ReflTransGen.head hturn hreach, hend⟩

/-- The loop stops only in a proper way. -/
theorem evalLoop_safe {turns : ℕ} (h : s.pc.length ≤ turns) :
    Ensures (evalLoop ctx turns s).2 (fun _ => True) (Stop.Proper ctx.fRequireMinimal) := by
  obtain ⟨s', _, ⟨_, hok⟩ | ⟨stop, hpc, hstep, herror⟩⟩ := evalLoop_reaches ctx h
  · rw [hok]
    exact ensures_ok trivial
  · rw [herror]
    exact ensures_error ((step_safe hpc).of_error hstep)

/-- The unknown error hides nothing but an operand that is no number. -/
theorem evalScript_error {stack : List Bytes} {script : CScript} {stop : Stop}
    (h : (evalScript ctx stack script).2 = .error stop) :
    (∃ serror, stop = .error serror) ∧ (stop = .error .unknownError →
      ∃ vch, (evalLoop ctx script.length (State.start stack script)).2 =
          .error (.notNumber vch) ∧
        (4 < vch.length ∨ ctx.fRequireMinimal = true ∧ CScriptNum.isMinimal vch = false)) := by
  unfold evalScript at h
  split at h
  · cases Except.error.inj h
    exact ⟨⟨_, rfl⟩, fun heq => by cases heq⟩
  · have hsafe : Ensures (evalLoop ctx script.length (State.start stack script)).2
        (fun _ => True) (Stop.Proper ctx.fRequireMinimal) := evalLoop_safe (Nat.le_refl _)
    generalize evalLoop ctx script.length (State.start stack script) = run at h hsafe
    match run, hsafe, h with
    | (calls, .ok s), _, h =>
      change (if s.vfExec ≠ [] then _ else _) = _ at h
      split at h
      · cases Except.error.inj h
        exact ⟨⟨_, rfl⟩, fun heq => by cases heq⟩
      · cases h
    | (calls, .error stop'), hsafe, h =>
      have hproper := hsafe.of_error rfl
      cases Except.error.inj h
      cases stop' with
      | error serror => exact ⟨⟨serror, rfl⟩, fun heq => absurd (Stop.error.inj heq) hproper⟩
      | notNumber vch => exact ⟨⟨_, rfl⟩, fun _ => ⟨vch, rfl, hproper⟩⟩
      | outOfRange => exact hproper.elim
      | assertion => exact hproper.elim
      | outOfTurns => exact hproper.elim

/-- Whatever the script, the flags, the stack and the checker: the loop ends, a step stops only in
a proper way, elements stay short, the stacks small, and the unknown error is returned for an
operand that is no number only. -/
theorem evalScript_stays_in_stacks (ctx : Context) (stack : List Bytes) (script : CScript) :
    (∃ s, Reaches ctx (State.start stack script) s ∧
      ((s.pc = [] ∧ (evalLoop ctx script.length (State.start stack script)).2 = .ok s) ∨
        ∃ stop, s.pc ≠ [] ∧ (step ctx s).2 = .error stop ∧
          (evalLoop ctx script.length (State.start stack script)).2 = .error stop)) ∧
    (∀ s stop, Reaches ctx (State.start stack script) s → s.pc ≠ [] →
      (step ctx s).2 = .error stop → stop.Proper ctx.fRequireMinimal) ∧
    (∀ s s', Reaches ctx (State.start stack script) s → Turn ctx s s' →
      s'.stack.length + s'.altstack.length ≤ 1000) ∧
    ((∀ vch ∈ stack, vch.length ≤ maxScriptElementSize) →
      ∀ s, Reaches ctx (State.start stack script) s →
        ∀ vch ∈ s.elements, vch.length ≤ maxScriptElementSize) ∧
    ∀ stop, (evalScript ctx stack script).2 = .error stop →
      (∃ serror, stop = .error serror) ∧ (stop = .error .unknownError →
        ∃ vch, (evalLoop ctx script.length (State.start stack script)).2 =
            .error (.notNumber vch) ∧
          (4 < vch.length ∨ ctx.fRequireMinimal = true ∧ CScriptNum.isMinimal vch = false)) := by
  refine ⟨evalLoop_reaches ctx (Nat.le_refl _), fun s stop _ hpc hstep => ?_,
    fun s s' _ hturn => ?_, fun hshort s hreach vch hvch => ?_,
    fun stop hstop => evalScript_error hstop⟩
  · exact (step_safe hpc).of_error hstep
  · exact hturn.steps.size
  · cases hreach.within vch hvch with
    | inl hold =>
      cases List.mem_append.1 hold with
      | inl hstack => exact hshort vch hstack
      | inr halt => exact absurd halt List.not_mem_nil
    | inr hlen => exact hlen

end Runs

end Scrypta.Interpreter
