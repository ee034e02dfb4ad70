import Scrypta.StandardScripts

/-! A script is the bytes of its operations and a tail that is not read: deleting a push filters
the operations and keeps the tail. -/

namespace Scrypta.Interpreter

open Script

def rawOperationsLoop : ℕ → CScript → List Bytes × CScript
  | 0, pc => ([], pc)
  | turns + 1, pc =>
    if (getOp2 pc).ok then
      let (ops, tail) := rawOperationsLoop turns (getOp2 pc).pc
      (rawOp pc :: ops, tail)
    else ([], pc)

/-- The bytes of each operation, and the tail that begins where `GetOp` fails. -/
def rawOperations (pc : CScript) : List Bytes × CScript := rawOperationsLoop pc.length pc

example : rawOperations [1, 7, 0x76, 2, 9] = ([[1, 7], [0x76]], [2, 9]) := by decide

theorem rawOperationsLoop_eq {turns turns' : ℕ} {pc : CScript} (h : pc.length ≤ turns)
    (h' : pc.length ≤ turns') : rawOperationsLoop turns pc = rawOperationsLoop turns' pc :=
  turns_enough (fun pc => ([], pc)) (fun pc r => (rawOp pc :: r.1, r.2)) rfl (fun _ _ => rfl) h h'

theorem rawOperations_of_ok {pc : CScript} (h : (getOp2 pc).ok = true) :
    rawOperations pc =
      (rawOp pc :: (rawOperations (getOp2 pc).pc).1, (rawOperations (getOp2 pc).pc).2) := by
  have hlt := length_getOp2_lt (ne_nil_of_getOp2_ok h)
  obtain ⟨n, hn⟩ := Nat.exists_eq_add_of_lt hlt
  rw [rawOperations, hn, rawOperationsLoop, if_pos h, rawOperations,
    rawOperationsLoop_eq (Nat.le_add_right _ _) (Nat.le_refl _)]

theorem rawOperations_of_not_ok {pc : CScript} (h : (getOp2 pc).ok = false) :
    rawOperations pc = ([], pc) := by
  unfold rawOperations
  cases pc.length with
  | zero => rfl
  | succ turns =>
    rw [rawOperationsLoop, h]
    rfl

/-- Nothing of the script is lost. -/
theorem flatten_rawOperations (pc : CScript) :
    (rawOperations pc).1.flatten ++ (rawOperations pc).2 = pc := by
  induction pc using script_induction with
  | h pc ih =>
    cases hok : (getOp2 pc).ok with
    | true =>
      rw [rawOperations_of_ok hok, List.flatten_cons, List.append_assoc, ih hok, rawOp_append]
    | false =>
      rw [rawOperations_of_not_ok hok]
      rfl

theorem rawOperations_tail (pc : CScript) : (getOp2 (rawOperations pc).2).ok = false := by
  induction pc using script_induction with
  | h pc ih =>
    cases hok : (getOp2 pc).ok with
    | true =>
      rw [rawOperations_of_ok hok]
      exact ih hok
    | false =>
      rw [rawOperations_of_not_ok hok]
      exact hok

/-! Bytes that are an operation, whatever follows them. -/

def Whole (b : Bytes) : Prop :=
  ∀ rest, (b ++ rest).length < 2 ^ 32 →
    (getOp2 (b ++ rest)).ok = true ∧ (getOp2 (b ++ rest)).pc = rest

section Whole

variable {b : Bytes} {pc rest : CScript}

theorem Whole.ne_nil (h : Whole b) : b ≠ [] := by
  intro hnil
  subst hnil
  exact Bool.noConfusion (h [] (by decide)).1

theorem Whole.rawOp_eq (h : Whole b) (hsize : (b ++ rest).length < 2 ^ 32) :
    rawOp (b ++ rest) = b := by
  have hraw := rawOp_append (b ++ rest)
  rw [(h rest hsize).2] at hraw
  exact List.append_cancel_right hraw

theorem whole_pushData (a : Bytes) : Whole (ScriptNum.pushData a) := by
  intro rest hsize
  have hle := length_le_pushData a
  rw [List.length_append] at hsize
  rw [getOp2_pushData (by omega)]
  exact ⟨rfl, rfl⟩

theorem rawOp_of_eq (heq : pc = b ++ (getOp2 pc).pc) : rawOp pc = b :=
  List.append_cancel_right ((rawOp_append pc).trans heq)

/-- What an operation is does not depend on what follows it. -/
theorem whole_rawOp (hok : (getOp2 pc).ok = true) : Whole (rawOp pc) := by
  intro rest hsize
  rcases getOp2_cases (ne_nil_of_getOp2_ok hok) with
    ⟨opcode, pc', hlt, heq⟩ | ⟨-, header, hheader, -, heq⟩ | ⟨hcut, -⟩
  · have hraw : rawOp pc = [opcode] := rawOp_of_eq (by rw [heq, getOp2_of_lt hlt]; rfl)
    rw [hraw, List.singleton_append, getOp2_of_lt hlt]
    exact ⟨rfl, rfl⟩
  · have hraw : rawOp pc = header ++ (getOp2 pc).data :=
      rawOp_of_eq (by rw [List.append_assoc]; exact heq)
    rw [hraw, List.append_assoc] at hsize ⊢
    rw [List.length_append] at hsize
    obtain ⟨opcode, -, hop⟩ :=
      hheader.getOp2_append (Nat.lt_of_le_of_lt (Nat.le_add_left _ _) hsize)
    rw [hop]
    exact ⟨rfl, rfl⟩
  · rw [hok] at hcut
    cases hcut

/-- A script that begins with the bytes of an operation has it as its first one. -/
theorem Whole.isPrefixOf_iff (h : Whole b) (hsize : pc.length < 2 ^ 32) :
    b.isPrefixOf pc = true ↔ (getOp2 pc).ok = true ∧ rawOp pc = b := by
  rw [List.isPrefixOf_iff_prefix]
  constructor
  · rintro ⟨rest, rfl⟩
    exact ⟨(h rest hsize).1, h.rawOp_eq hsize⟩
  · rintro ⟨-, rfl⟩
    exact ⟨_, rawOp_append pc⟩

theorem rawOperations_whole {r : Bytes} (hr : r ∈ (rawOperations pc).1) : Whole r := by
  induction pc using script_induction with
  | h pc ih =>
    cases hok : (getOp2 pc).ok with
    | true =>
      rw [rawOperations_of_ok hok] at hr
      cases List.mem_cons.1 hr with
      | inl heq => exact heq ▸ whole_rawOp hok
      | inr hmem => exact ih hok hmem
    | false =>
      rw [rawOperations_of_not_ok hok] at hr
      cases hr

/-- Operations that are joined are read as they were. -/
theorem rawOperations_flatten {ops : List Bytes} {tail : CScript} (hops : ∀ r ∈ ops, Whole r)
    (htail : (getOp2 tail).ok = false) (hsize : (ops.flatten ++ tail).length < 2 ^ 32) :
    rawOperations (ops.flatten ++ tail) = (ops, tail) := by
  induction ops with
  | nil => exact rawOperations_of_not_ok htail
  | cons r ops ih =>
    have hr := hops r List.mem_cons_self
    rw [List.flatten_cons, List.append_assoc] at hsize ⊢
    have hrest : (ops.flatten ++ tail).length < 2 ^ 32 := by
      rw [List.length_append] at hsize
      exact Nat.lt_of_le_of_lt (Nat.le_add_left _ _) hsize
    have hop := hr _ hsize
    rw [rawOperations_of_ok hop.1, hop.2, hr.rawOp_eq hsize,
      ih (fun r hmem => hops r (List.mem_cons_of_mem _ hmem)) hrest]

end Whole

/-! What stays when an operation is deleted, and how often it is found. -/

section Deleting

variable {b : Bytes} {pc script : CScript}

def without (b : Bytes) (pc : CScript) : CScript :=
  ((rawOperations pc).1.filter (· != b)).flatten ++ (rawOperations pc).2

def copies (b : Bytes) (pc : CScript) : ℕ := (rawOperations pc).1.count b

theorem without_of_ne (hok : (getOp2 pc).ok = true) (hne : rawOp pc ≠ b) :
    without b pc = rawOp pc ++ without b (getOp2 pc).pc ∧
      copies b pc = copies b (getOp2 pc).pc := by
  unfold without copies
  rw [rawOperations_of_ok hok]
  constructor
  · rw [List.filter_cons_of_pos (by simpa using hne), List.flatten_cons, List.append_assoc]
  · exact List.count_cons_of_ne hne

theorem without_of_eq (hok : (getOp2 pc).ok = true) (heq : rawOp pc = b) :
    without b pc = without b (getOp2 pc).pc ∧ copies b pc = copies b (getOp2 pc).pc + 1 := by
  unfold without copies
  rw [rawOperations_of_ok hok, heq]
  constructor
  · rw [List.filter_cons_of_neg (by simp)]
  · exact List.count_cons_self

theorem without_of_not_ok (hok : (getOp2 pc).ok = false) :
    without b pc = pc ∧ copies b pc = 0 := by
  unfold without copies
  rw [rawOperations_of_not_ok hok]
  exact ⟨rfl, rfl⟩

theorem length_without_le (b : Bytes) (pc : CScript) : (without b pc).length ≤ pc.length := by
  induction pc using script_induction with
  | h pc ih =>
    cases hok : (getOp2 pc).ok with
    | true =>
      have hlen := length_rawOp pc
      have hih := ih hok
      by_cases heq : rawOp pc = b
      · rw [(without_of_eq hok heq).1]
        omega
      · rw [(without_of_ne hok heq).1, List.length_append]
        omega
    | false => exact Nat.le_of_eq (congrArg List.length (without_of_not_ok hok).1)

theorem copies_le (b : Bytes) (pc : CScript) : copies b pc ≤ pc.length := by
  induction pc using script_induction with
  | h pc ih =>
    cases hok : (getOp2 pc).ok with
    | true =>
      have hlt := length_getOp2_lt (ne_nil_of_getOp2_ok hok)
      have hih := ih hok
      by_cases heq : rawOp pc = b
      · rw [(without_of_eq hok heq).2]
        omega
      · rw [(without_of_ne hok heq).2]
        omega
    | false =>
      rw [(without_of_not_ok hok).2]
      exact Nat.zero_le _

/-- Erasing at one place keeps what is left in the end, and moves the copies into the count. -/
theorem eraseCopies_without (hb : Whole b) {turns : ℕ} (hturns : pc.length ≤ turns)
    (hsize : pc.length < 2 ^ 32) :
    without b (eraseCopies b turns pc).1 = without b pc ∧
      (eraseCopies b turns pc).2 + copies b (eraseCopies b turns pc).1 = copies b pc ∧
      (eraseCopies b turns pc).1.length ≤ pc.length ∧
      b.isPrefixOf (eraseCopies b turns pc).1 = false := by
  induction turns generalizing pc with
  | zero =>
    have hnil : pc = [] := List.eq_nil_of_length_eq_zero (Nat.le_zero.1 hturns)
    subst hnil
    refine ⟨rfl, Nat.zero_add _, Nat.le_refl _, ?_⟩
    rw [eraseCopies, Bool.eq_false_iff, Ne, List.isPrefixOf_iff_prefix, List.prefix_nil]
    exact hb.ne_nil
  | succ turns ih =>
    rw [eraseCopies]
    cases hpre : b.isPrefixOf pc with
    | false => exact ⟨rfl, Nat.zero_add _, Nat.le_refl _, hpre⟩
    | true =>
      obtain ⟨hok, hraw⟩ := (hb.isPrefixOf_iff hsize).1 hpre
      have hdrop : pc.drop b.length = (getOp2 pc).pc := by
        conv_lhs => rw [← rawOp_append pc, hraw]
        exact List.drop_left
      have hlt := length_getOp2_lt (ne_nil_of_getOp2_ok hok)
      obtain ⟨hkept, hcount, hlen, hstop⟩ :=
        ih (show (getOp2 pc).pc.length ≤ turns by omega) (by omega)
      obtain ⟨hwithout, hcopies⟩ := without_of_eq hok hraw
      rw [if_pos rfl, hdrop]
      dsimp only
      refine ⟨hkept.trans hwithout.symm, ?_, by omega, hstop⟩
      rw [hcopies, ← hcount]
      exact Nat.add_right_comm _ _ _

theorem findAndDeleteLoop_eq (hb : Whole b) {turns : ℕ} (hturns : pc.length < turns)
    (hsize : pc.length < 2 ^ 32) :
    findAndDeleteLoop b turns pc = (without b pc, copies b pc) := by
  induction turns generalizing pc with
  | zero => exact absurd hturns (Nat.not_lt_zero _)
  | succ turns ih =>
    obtain ⟨hkept, hcount, hlen, hstop⟩ := eraseCopies_without hb (Nat.le_refl _) hsize
    rw [findAndDeleteLoop, ← hkept, ← hcount]
    generalize eraseCopies b pc.length pc = erased at hlen hstop ⊢
    obtain ⟨pc', nHere⟩ := erased
    dsimp only at hlen hstop ⊢
    cases hok : (getOp2 pc').ok with
    | true =>
      have hlt := length_getOp2_lt (ne_nil_of_getOp2_ok hok)
      have hne : rawOp pc' ≠ b := by
        intro heq
        have hpre := (hb.isPrefixOf_iff (by omega)).2 ⟨hok, heq⟩
        rw [hstop] at hpre
        cases hpre
      obtain ⟨hwithout, hcopies⟩ := without_of_ne hok hne
      rw [if_pos rfl, ih (by omega) (by omega), hwithout, hcopies]
    | false =>
      obtain ⟨hwithout, hcopies⟩ := without_of_not_ok (b := b) hok
      rw [hwithout, hcopies]
      rfl

/-- Deleting filters the operations. -/
theorem findAndDelete_eq (hb : Whole b) (hsize : script.length < 2 ^ 32) :
    findAndDelete script b = (without b script, copies b script) := by
  have hne : b.isEmpty = false := by
    rw [List.isEmpty_eq_false_iff]
    exact hb.ne_nil
  rw [findAndDelete, hne]
  exact findAndDeleteLoop_eq hb (Nat.lt_succ_self _) hsize

/-- Deletions neither hide operations nor create them. -/
theorem rawOperations_without (b : Bytes) (hsize : script.length < 2 ^ 32) :
    rawOperations (without b script) =
      ((rawOperations script).1.filter (· != b), (rawOperations script).2) :=
  rawOperations_flatten (fun _ hr => rawOperations_whole (List.mem_filter.1 hr).1)
    (rawOperations_tail script) (Nat.lt_of_le_of_lt (length_without_le b script) hsize)

theorem copies_without (b : Bytes) (hsize : script.length < 2 ^ 32) :
    copies b (without b script) = 0 := by
  rw [copies, rawOperations_without b hsize, List.count_eq_zero]
  intro hmem
  exact absurd (List.mem_filter.1 hmem).2 (by simp)

theorem without_idem (b : Bytes) (hsize : script.length < 2 ^ 32) :
    without b (without b script) = without b script := by
  rw [without, rawOperations_without b hsize, List.filter_filter]
  simp only [Bool.and_self]
  rfl

theorem without_comm (a b : Bytes) (hsize : script.length < 2 ^ 32) :
    without b (without a script) = without a (without b script) := by
  rw [without, rawOperations_without a hsize, without, rawOperations_without b hsize,
    List.filter_filter, List.filter_filter]
  simp only [Bool.and_comm]

theorem dropSignature_eq (hsize : script.length < 2 ^ 32) (vchSig : Bytes) :
    dropSignature script vchSig = without (ScriptNum.pushData vchSig) script := by
  rw [dropSignature, findAndDelete_eq (whole_pushData vchSig) hsize]

/-- The order in which signatures are dropped makes no difference. -/
theorem foldl_dropSignature_perm {sigs sigs' : List Bytes} (h : sigs.Perm sigs')
    (hsize : script.length < 2 ^ 32) :
    sigs.foldl dropSignature script = sigs'.foldl dropSignature script := by
  have hdrop : ∀ {script : CScript} (vchSig : Bytes), script.length < 2 ^ 32 →
      (dropSignature script vchSig).length < 2 ^ 32 := by
    intro script vchSig hsize
    rw [dropSignature_eq hsize]
    exact Nat.lt_of_le_of_lt (length_without_le _ _) hsize
  induction h generalizing script with
  | nil => rfl
  | cons vchSig _ ih => exact ih (hdrop vchSig hsize)
  | swap sig sig' sigs =>
    have hswap : dropSignature (dropSignature script sig') sig =
        dropSignature (dropSignature script sig) sig' := by
      rw [dropSignature_eq (hdrop sig' hsize), dropSignature_eq (hdrop sig hsize),
        dropSignature_eq hsize, dropSignature_eq hsize, without_comm _ _ hsize]
    rw [List.foldl_cons, List.foldl_cons, hswap]
    rfl
  | trans _ _ ih ih' => exact (ih hsize).trans (ih' hsize)

end Deleting

/-! The loops of `FindAndDelete` end. -/

/-- `none` where the inner loop would need more turns. -/
def eraseRun (b : CScript) : ℕ → CScript → Option (CScript × ℕ)
  | 0, _ => none
  | turns + 1, pc =>
    if b.isPrefixOf pc then
      (eraseRun b turns (pc.drop b.length)).map fun r => (r.1, r.2 + 1)
    else some (pc, 0)

def deleteRun (b : CScript) : ℕ → CScript → Option (CScript × ℕ)
  | 0, _ => none
  | turns + 1, pc =>
    (eraseRun b (pc.length + 1) pc).bind fun erased =>
      if (getOp2 erased.1).ok then
        (deleteRun b turns (getOp2 erased.1).pc).map fun r =>
          (rawOp erased.1 ++ r.1, erased.2 + r.2)
      else some erased

theorem eraseRun_eq {b pc : CScript} (hne : b ≠ []) {turns turns' : ℕ} (h : pc.length < turns)
    (h' : pc.length ≤ turns') : eraseRun b turns pc = some (eraseCopies b turns' pc) ∧
      (eraseCopies b turns' pc).1.length ≤ pc.length := by
  induction turns generalizing turns' pc with
  | zero => exact absurd h (Nat.not_lt_zero _)
  | succ turns ih =>
    rw [eraseRun]
    cases hpre : b.isPrefixOf pc with
    | false =>
      rw [eraseCopies_of_ne hpre]
      exact ⟨rfl, Nat.le_refl _⟩
    | true =>
      have hpos := List.length_pos_iff.2 hne
      have hle := (List.isPrefixOf_iff_prefix.1 hpre).length_le
      have hdrop : (pc.drop b.length).length = pc.length - b.length := List.length_drop
      cases turns' with
      | zero => omega
      | succ turns' =>
        have hturns : (pc.drop b.length).length < turns := by omega
        obtain ⟨hrun, hlen⟩ := ih hturns (show (pc.drop b.length).length ≤ turns' by omega)
        rw [if_pos rfl, hrun, eraseCopies, if_pos hpre]
        exact ⟨rfl, Nat.le_trans hlen (by omega)⟩

theorem deleteRun_eq {b pc : CScript} (hne : b ≠ []) {turns : ℕ} (h : pc.length < turns) :
    deleteRun b turns pc = some (findAndDeleteLoop b turns pc) := by
  induction turns generalizing pc with
  | zero => exact absurd h (Nat.not_lt_zero _)
  | succ turns ih =>
    obtain ⟨hrun, hlen⟩ := eraseRun_eq hne (Nat.lt_succ_self pc.length) (Nat.le_refl _)
    rw [deleteRun, findAndDeleteLoop, hrun, Option.bind_some]
    generalize eraseCopies b pc.length pc = erased at hlen ⊢
    obtain ⟨pc', nHere⟩ := erased
    dsimp only at hlen ⊢
    split
    · rename_i hok
      have hlt := length_getOp2_lt (ne_nil_of_getOp2_ok hok)
      rw [ih (by omega)]
      rfl
    · rfl

theorem deleteRun_pushData (a : Bytes) (script : CScript) :
    deleteRun (ScriptNum.pushData a) (script.length + 1) script =
      some (findAndDelete script (ScriptNum.pushData a)) := by
  have hne := (whole_pushData a).ne_nil
  rw [deleteRun_eq hne (Nat.lt_succ_self _), findAndDelete,
    if_neg (by rw [Bool.not_eq_true, List.isEmpty_eq_false_iff]; exact hne)]

/-! A script of more than 2^32 bytes. -/

/-- A push of one byte before `tail`, whose size the code does not see in 32 bits. -/
theorem long_script_cut {tail : CScript} (h : tail.length = 2 ^ 32 - 1) :
    rawOperations (1 :: 7 :: tail) = ([], 1 :: 7 :: tail) := by
  have hget : getOp2 (1 :: 7 :: tail) = Op.push 1 1 (7 :: tail) := rfl
  have hlen : (7 :: tail).length % 2 ^ 32 = 0 := by
    rw [List.length_cons]
    omega
  apply rawOperations_of_not_ok
  rw [hget, Op.push, hlen, if_pos Nat.zero_lt_one]
  rfl

theorem findAndDelete_pos (a : Bytes) (tail : CScript) :
    0 < (findAndDelete (ScriptNum.pushData a ++ tail) (ScriptNum.pushData a)).2 := by
  have hne := (whole_pushData a).ne_nil
  generalize ScriptNum.pushData a = b at hne
  obtain ⟨first, b', rfl⟩ := List.exists_cons_of_ne_nil hne
  have hpre : (first :: b').isPrefixOf (first :: b' ++ tail) = true :=
    List.isPrefixOf_iff_prefix.2 (List.prefix_append _ _)
  have herase : 0 < (eraseCopies (first :: b') (first :: b' ++ tail).length
      (first :: b' ++ tail)).2 := by
    rw [List.cons_append, List.length_cons, eraseCopies, ← List.cons_append, if_pos hpre]
    exact Nat.succ_pos _
  rw [findAndDelete, if_neg (by simp), findAndDeleteLoop]
  dsimp only
  split
  · exact Nat.add_pos_left herase _
  · exact herase

/-- No operation of this script is the push that is deleted from it. -/
theorem long_script_deletion :
    rawOperations (ScriptNum.pushData [7] ++ List.replicate (2 ^ 32 - 1) 0) =
        ([], ScriptNum.pushData [7] ++ List.replicate (2 ^ 32 - 1) 0) ∧
      0 < (findAndDelete (ScriptNum.pushData [7] ++ List.replicate (2 ^ 32 - 1) 0)
        (ScriptNum.pushData [7])).2 :=
  ⟨long_script_cut List.length_replicate, findAndDelete_pos _ _⟩

/-- Below 2^32 bytes, deleting a push takes away exactly the operations that are this push, counts
them, and can be repeated and reordered; its loops end for every script. -/
theorem findAndDelete_exact (script : CScript) (hsize : script.length < 2 ^ 32) :
    (rawOperations script).1.flatten ++ (rawOperations script).2 = script ∧
      (getOp2 (rawOperations script).2).ok = false ∧
      (∀ r ∈ (rawOperations script).1, Whole r) ∧
      (∀ a, findAndDelete script (ScriptNum.pushData a) =
          (((rawOperations script).1.filter (· != ScriptNum.pushData a)).flatten ++
            (rawOperations script).2, (rawOperations script).1.count (ScriptNum.pushData a)) ∧
        (findAndDelete script (ScriptNum.pushData a)).2 ≤ script.length ∧
        rawOperations (findAndDelete script (ScriptNum.pushData a)).1 =
          ((rawOperations script).1.filter (· != ScriptNum.pushData a),
            (rawOperations script).2) ∧
        findAndDelete (findAndDelete script (ScriptNum.pushData a)).1 (ScriptNum.pushData a) =
          ((findAndDelete script (ScriptNum.pushData a)).1, 0)) ∧
      (∀ a b, (findAndDelete (findAndDelete script (ScriptNum.pushData a)).1
          (ScriptNum.pushData b)).1 =
        (findAndDelete (findAndDelete script (ScriptNum.pushData b)).1
          (ScriptNum.pushData a)).1) ∧
      (∀ sigs sigs' : List Bytes, sigs.Perm sigs' →
        sigs.foldl dropSignature script = sigs'.foldl dropSignature script) ∧
      ∀ (a : Bytes) (pc : CScript), deleteRun (ScriptNum.pushData a) (pc.length + 1) pc =
        some (findAndDelete pc (ScriptNum.pushData a)) := by
  have hlen : ∀ a, (without a script).length < 2 ^ 32 := fun a =>
    Nat.lt_of_le_of_lt (length_without_le a script) hsize
  refine ⟨flatten_rawOperations script, rawOperations_tail script, fun _ => rawOperations_whole,
    fun a => ⟨findAndDelete_eq (whole_pushData a) hsize, ?_, ?_, ?_⟩, fun a b => ?_,
    fun _ _ hperm => foldl_dropSignature_perm hperm hsize, deleteRun_pushData⟩
  · rw [findAndDelete_eq (whole_pushData a) hsize]
    exact copies_le _ _
  · rw [findAndDelete_eq (whole_pushData a) hsize]
    exact rawOperations_without _ hsize
  · rw [findAndDelete_eq (whole_pushData a) hsize, findAndDelete_eq (whole_pushData a) (hlen _),
      without_idem _ hsize, copies_without _ hsize]
  · rw [findAndDelete_eq (whole_pushData a) hsize, findAndDelete_eq (whole_pushData b) hsize,
      findAndDelete_eq (whole_pushData b) (hlen _), findAndDelete_eq (whole_pushData a) (hlen _)]
    exact without_comm _ _ hsize

theorem findAndDelete_exact_run :
    findAndDelete [1, 7, 0x76, 1, 7, 2, 9] (ScriptNum.pushData [7]) = ([0x76, 2, 9], 2) := by
  rw [((findAndDelete_exact [1, 7, 0x76, 1, 7, 2, 9] (by decide)).2.2.2.1 [7]).1]
  decide

end Scrypta.Interpreter
