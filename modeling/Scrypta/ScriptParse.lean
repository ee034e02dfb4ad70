import Scrypta.Script

/-! Reading a script from its first operation to its last. -/

namespace Scrypta.Script

@[simp] theorem getOp2_nil : getOp2 [] = Op.cut [] := rfl

theorem Op.push_suffix (opcode : UInt8) (nSize : ℕ) (pc : CScript) :
    (Op.push opcode nSize pc).pc <:+ pc := by
  unfold Op.push
  split
  · exact List.suffix_rfl
  · exact List.drop_suffix nSize pc

theorem Op.push_ok {opcode : UInt8} {nSize : ℕ} {pc : CScript}
    (h : (Op.push opcode nSize pc).ok = true) :
    nSize ≤ pc.length ∧ Op.push opcode nSize pc = ⟨true, opcode, pc.take nSize, pc.drop nSize⟩ := by
  unfold Op.push at h ⊢
  split at h
  · exact Bool.noConfusion h
  · rename_i hle
    exact ⟨Nat.le_trans (Nat.le_of_not_lt hle) (Nat.mod_le _ _), if_neg hle⟩

theorem getOp2_of_lt {opcode : UInt8} (h : opPushData4 < opcode) (pc : CScript) :
    getOp2 (opcode :: pc) = ⟨true, opcode, [], pc⟩ := by
  simp only [getOp2]
  exact if_pos h

/-- An opcode that pushes data is cut off, or reads its data where its size ends. -/
theorem getOp2_push {opcode : UInt8} (h : opcode ≤ opPushData4) (pc : CScript) :
    ∃ pc', pc' <:+ pc ∧ (getOp2 (opcode :: pc) = Op.cut pc' ∨
      ∃ nSize, getOp2 (opcode :: pc) = Op.push opcode nSize pc') := by
  simp only [getOp2, if_neg (UInt8.not_lt.2 h)]
  split
  · exact ⟨pc, List.suffix_rfl, Or.inr ⟨_, rfl⟩⟩
  · split
    · split
      · exact ⟨_, List.suffix_cons _ _, Or.inr ⟨_, rfl⟩⟩
      · exact ⟨_, List.suffix_rfl, Or.inl rfl⟩
    · split
      · split
        · exact ⟨_, List.suffix_append [_, _] _, Or.inr ⟨_, rfl⟩⟩
        · exact ⟨_, List.suffix_rfl, Or.inl rfl⟩
      · split
        · exact ⟨_, List.suffix_append [_, _, _, _] _, Or.inr ⟨_, rfl⟩⟩
        · exact ⟨_, List.suffix_rfl, Or.inl rfl⟩

/-- An operation takes its opcode at least. -/
theorem getOp2_cons_suffix (opcode : UInt8) (pc : CScript) :
    (getOp2 (opcode :: pc)).pc <:+ pc := by
  by_cases hlt : opPushData4 < opcode
  · exact ⟨[], congrArg Op.pc (getOp2_of_lt hlt pc)⟩
  · obtain ⟨pc', hpc, hcut | ⟨nSize, hpush⟩⟩ := getOp2_push (UInt8.not_lt.1 hlt) pc
    · rw [hcut]
      exact hpc
    · rw [hpush]
      exact (Op.push_suffix opcode nSize pc').trans hpc

/-- What an operation leaves is the end of the script. -/
theorem getOp2_suffix (pc : CScript) : (getOp2 pc).pc <:+ pc := by
  cases pc with
  | nil => exact List.suffix_rfl
  | cons opcode pc => exact (getOp2_cons_suffix opcode pc).trans (List.suffix_cons opcode pc)

theorem length_getOp2_lt {pc : CScript} (h : pc ≠ []) :
    (getOp2 pc).pc.length < pc.length := by
  cases pc with
  | nil => exact absurd rfl h
  | cons opcode pc =>
    have hle := (getOp2_cons_suffix opcode pc).length_le
    rw [List.length_cons]
    omega

theorem opcode_of_ok {opcode : UInt8} {pc : CScript} (h : (getOp2 (opcode :: pc)).ok = true) :
    (getOp2 (opcode :: pc)).opcode = opcode := by
  by_cases hlt : opPushData4 < opcode
  · rw [getOp2_of_lt hlt]
  · obtain ⟨pc', _, hcut | ⟨nSize, hpush⟩⟩ := getOp2_push (UInt8.not_lt.1 hlt) pc
    · rw [hcut] at h
      exact Bool.noConfusion h
    · rw [hpush] at h ⊢
      rw [(Op.push_ok h).2]

theorem ne_nil_of_getOp2_ok {pc : CScript} (h : (getOp2 pc).ok = true) : pc ≠ [] := by
  intro hnil
  subst hnil
  exact Bool.noConfusion h

/-- An opcode that pushes nothing stands for itself. -/
theorem eq_cons_of_lt {pc : CScript} (hok : (getOp2 pc).ok = true)
    (hlt : opPushData4 < (getOp2 pc).opcode) : pc = (getOp2 pc).opcode :: (getOp2 pc).pc := by
  cases pc with
  | nil => cases hok
  | cons opcode pc =>
    have hop := opcode_of_ok hok
    rw [hop] at hlt ⊢
    rw [getOp2_of_lt hlt]

theorem data_of_lt {pc : CScript} (hok : (getOp2 pc).ok = true)
    (hlt : opPushData4 < (getOp2 pc).opcode) : (getOp2 pc).data = [] := by
  rw [eq_cons_of_lt hok hlt, getOp2_of_lt hlt]

theorem le_of_data_ne {pc : CScript} (hok : (getOp2 pc).ok = true) (hne : (getOp2 pc).data ≠ []) :
    (getOp2 pc).opcode ≤ opPushData4 :=
  UInt8.not_lt.1 fun hlt => hne (data_of_lt hok hlt)

theorem cut_of_not_ok {pc : CScript} (h : (getOp2 pc).ok = false) :
    (getOp2 pc).opcode = opInvalidOpcode ∧ (getOp2 pc).data = [] := by
  cases pc with
  | nil => exact ⟨rfl, rfl⟩
  | cons opcode pc =>
    by_cases hlt : opPushData4 < opcode
    · rw [getOp2_of_lt hlt] at h
      cases h
    · obtain ⟨pc', _, hcut | ⟨nSize, hpush⟩⟩ := getOp2_push (UInt8.not_lt.1 hlt) pc
      · rw [hcut]
        exact ⟨rfl, rfl⟩
      · rw [hpush] at h ⊢
        unfold Op.push at h ⊢
        split at h
        · rw [if_pos ‹_›]
          exact ⟨rfl, rfl⟩
        · cases h

/-- The forms of a push of so many bytes. -/
inductive PushHeader : ℕ → Bytes → Prop
  | direct {n : UInt8} : n < opPushData1 → PushHeader n.toNat [n]
  | one (a : UInt8) : PushHeader a.toNat [opPushData1, a]
  | two (a b : UInt8) : PushHeader (a.toNat + 256 * b.toNat) [opPushData2, a, b]
  | four (a b c d : UInt8) :
      PushHeader (a.toNat + 256 * b.toNat + 65536 * c.toNat + 16777216 * d.toNat)
        [opPushData4, a, b, c, d]

section PushHeader

variable {n : ℕ} {header data : Bytes} {pc rest : CScript}

theorem PushHeader.length_le (h : PushHeader n header) : header.length ≤ 5 := by
  cases h <;> simp only [List.length_cons, List.length_nil] <;> omega

theorem PushHeader.eq_singleton (h : PushHeader n header) (hlen : header.length = 1) :
    header = [UInt8.ofNat n] := by
  cases h with
  | direct => rw [UInt8.ofNat_toNat]
  | one a => cases hlen
  | two a b => cases hlen
  | four a b c d => cases hlen

theorem PushHeader.getOp2_eq (h : PushHeader n header) (pc : CScript) :
    ∃ opcode, header.head? = some opcode ∧ opcode ≤ opPushData4 ∧
      getOp2 (header ++ pc) = Op.push opcode n pc := by
  cases h with
  | @direct n hlt =>
    have hle : n ≤ opPushData4 := Nat.le_of_lt (Nat.lt_trans hlt (by decide))
    refine ⟨n, rfl, hle, ?_⟩
    simp only [List.singleton_append, getOp2, if_neg (UInt8.not_lt.2 hle), if_pos hlt]
  | one a => exact ⟨_, rfl, by decide, rfl⟩
  | two a b => exact ⟨_, rfl, by decide, rfl⟩
  | four a b c d => exact ⟨_, rfl, by decide, rfl⟩

/-- A push that fits in a script of less than 2^32 bytes is read back. -/
theorem PushHeader.getOp2_append (h : PushHeader data.length header)
    (hsize : (data ++ rest).length < 2 ^ 32) : ∃ opcode, header.head? = some opcode ∧
      getOp2 (header ++ (data ++ rest)) = ⟨true, opcode, data, rest⟩ := by
  obtain ⟨opcode, hopcode, -, heq⟩ := h.getOp2_eq (data ++ rest)
  refine ⟨opcode, hopcode, ?_⟩
  rw [heq, Op.push, Nat.mod_eq_of_lt hsize, if_neg, List.take_left, List.drop_left]
  rw [List.length_append]
  omega

theorem eq_pushDataOpcode {opcode : UInt8} (hle : ¬opPushData4 < opcode)
    (hge : ¬opcode < opPushData1) :
    opcode = opPushData1 ∨ opcode = opPushData2 ∨ opcode = opPushData4 := by
  have h1 : opPushData1.toNat = 76 := rfl
  have h2 : opPushData2.toNat = 77 := rfl
  have h4 : opPushData4.toNat = 78 := rfl
  rw [UInt8.lt_iff_toNat_lt] at hle hge
  rw [← UInt8.toNat_inj, ← UInt8.toNat_inj, ← UInt8.toNat_inj]
  omega

/-- An operation is an opcode alone, or a push with a header, or it is cut off in or after its
header. -/
theorem getOp2_cases (hne : pc ≠ []) :
    (∃ opcode rest, opPushData4 < opcode ∧ pc = opcode :: rest) ∨
      ((getOp2 pc).ok = true ∧ ∃ header, PushHeader (getOp2 pc).data.length header ∧
        header.head? = some (getOp2 pc).opcode ∧
        pc = header ++ ((getOp2 pc).data ++ (getOp2 pc).pc)) ∨
      ((getOp2 pc).ok = false ∧ pc.length ≤ (getOp2 pc).pc.length + 5) := by
  have hpush : ∀ {n : ℕ} {header : Bytes}, PushHeader n header → ∀ pc : CScript,
      ((getOp2 (header ++ pc)).ok = true ∧
        ∃ header', PushHeader (getOp2 (header ++ pc)).data.length header' ∧
          header'.head? = some (getOp2 (header ++ pc)).opcode ∧
          header ++ pc =
            header' ++ ((getOp2 (header ++ pc)).data ++ (getOp2 (header ++ pc)).pc)) ∨
      ((getOp2 (header ++ pc)).ok = false ∧
        (header ++ pc).length ≤ (getOp2 (header ++ pc)).pc.length + 5) := by
    intro n header h pc
    obtain ⟨opcode, hopcode, -, heq⟩ := h.getOp2_eq pc
    have hlen := h.length_le
    rw [heq]
    cases hok : (Op.push opcode n pc).ok with
    | true =>
      obtain ⟨hle, hop⟩ := Op.push_ok hok
      rw [hop]
      refine Or.inl ⟨rfl, header, ?_, hopcode, ?_⟩
      · rw [List.length_take, Nat.min_eq_left hle]
        exact h
      · rw [List.take_append_drop]
    | false =>
      refine Or.inr ⟨rfl, ?_⟩
      unfold Op.push at hok ⊢
      split at hok
      · next hcut =>
        rw [if_pos hcut, List.length_append]
        change header.length + pc.length ≤ pc.length + 5
        omega
      · cases hok
  obtain ⟨opcode, pc, rfl⟩ := List.exists_cons_of_ne_nil hne
  by_cases hlt : opPushData4 < opcode
  · exact Or.inl ⟨opcode, pc, hlt, rfl⟩
  · right
    by_cases hdirect : opcode < opPushData1
    · exact hpush (.direct hdirect) pc
    · have hcut : getOp2 (opcode :: pc) = Op.cut pc → (getOp2 (opcode :: pc)).ok = false ∧
          (opcode :: pc).length ≤ (getOp2 (opcode :: pc)).pc.length + 5 := by
        intro heq
        rw [heq, List.length_cons]
        exact ⟨rfl, Nat.add_le_add_left (by decide) _⟩
      rcases eq_pushDataOpcode hlt hdirect with rfl | rfl | rfl
      · match pc with
        | a :: pc => exact hpush (.one a) pc
        | [] => exact Or.inr (hcut rfl)
      · match pc with
        | a :: b :: pc => exact hpush (.two a b) pc
        | [_] => exact Or.inr (hcut rfl)
        | [] => exact Or.inr (hcut rfl)
      · match pc with
        | a :: b :: c :: d :: pc => exact hpush (.four a b c d) pc
        | [_, _, _] => exact Or.inr (hcut rfl)
        | [_, _] => exact Or.inr (hcut rfl)
        | [_] => exact Or.inr (hcut rfl)
        | [] => exact Or.inr (hcut rfl)

end PushHeader

/-- A loop over `GetOp` with as many turns as the script has bytes needs no more of them. -/
theorem turns_enough {α : Type*} {loop : ℕ → CScript → α} (stop : CScript → α)
    (go : CScript → α → α) (hzero : loop 0 [] = stop [])
    (hsucc : ∀ turns pc, loop (turns + 1) pc =
      if (getOp2 pc).ok then go pc (loop turns (getOp2 pc).pc) else stop pc)
    {turns turns' : ℕ} {pc : CScript} (h : pc.length ≤ turns) (h' : pc.length ≤ turns') :
    loop turns pc = loop turns' pc := by
  have hnil : ∀ turns, loop turns [] = stop [] := by
    intro turns
    cases turns with
    | zero => exact hzero
    | succ turns => rw [hsucc, getOp2_nil, Op.cut, if_neg Bool.false_ne_true]
  induction turns generalizing turns' pc with
  | zero =>
    obtain rfl : pc = [] := List.eq_nil_of_length_eq_zero (Nat.le_zero.1 h)
    rw [hzero, hnil]
  | succ turns ih =>
    cases turns' with
    | zero =>
      obtain rfl : pc = [] := List.eq_nil_of_length_eq_zero (Nat.le_zero.1 h')
      rw [hzero, hnil]
    | succ turns' =>
      rw [hsucc, hsucc]
      split
      · rename_i hok
        have hlt := length_getOp2_lt (ne_nil_of_getOp2_ok hok)
        exact congrArg (go pc) (ih (by omega) (by omega))
      · rfl

def operationsLoop : ℕ → CScript → List Op
  | 0, _ => []
  | turns + 1, pc =>
    if (getOp2 pc).ok then getOp2 pc :: operationsLoop turns (getOp2 pc).pc else []

/-- The operations that a loop over `GetOp` sees: all of them, or those before the first that is
cut off. -/
def operations (pc : CScript) : List Op := operationsLoop pc.length pc

theorem operationsLoop_eq {turns turns' : ℕ} {pc : CScript} (h : pc.length ≤ turns)
    (h' : pc.length ≤ turns') : operationsLoop turns pc = operationsLoop turns' pc :=
  turns_enough (fun _ => []) (fun pc ops => getOp2 pc :: ops) rfl (fun _ _ => rfl) h h'

theorem operations_eq (pc : CScript) :
    operations pc =
      if (getOp2 pc).ok then getOp2 pc :: operations (getOp2 pc).pc else [] := by
  cases pc with
  | nil => rfl
  | cons opcode pc =>
    have hlt := length_getOp2_lt (List.cons_ne_nil opcode pc)
    rw [List.length_cons] at hlt
    rw [operations, List.length_cons, operationsLoop]
    split
    · exact congrArg (getOp2 (opcode :: pc) :: ·) (operationsLoop_eq (by omega) (Nat.le_refl _))
    · rfl

/-- The bytes that an operation takes off the script. -/
def rawOp (pc : CScript) : Bytes := pc.take (pc.length - (getOp2 pc).pc.length)

theorem rawOp_append (pc : CScript) : rawOp pc ++ (getOp2 pc).pc = pc := by
  obtain ⟨raw, hraw⟩ := getOp2_suffix pc
  have hlen : pc.length - (getOp2 pc).pc.length = raw.length := by
    have hlength := congrArg List.length hraw
    rw [List.length_append] at hlength
    omega
  have htake : rawOp pc = raw := by
    rw [rawOp, hlen]
    conv_lhs => rw [← hraw]
    exact List.take_left
  rw [htake, hraw]

theorem length_rawOp (pc : CScript) :
    (rawOp pc).length + (getOp2 pc).pc.length = pc.length := by
  rw [← List.length_append, rawOp_append]

/-- To prove a property of scripts, prove it from what one operation leaves. -/
theorem script_induction {P : CScript → Prop}
    (h : ∀ pc, ((getOp2 pc).ok = true → P (getOp2 pc).pc) → P pc) (pc : CScript) : P pc := by
  induction hn : pc.length using Nat.strongRecOn generalizing pc with
  | ind n ih =>
    apply h
    intro hok
    have hlt := length_getOp2_lt (ne_nil_of_getOp2_ok hok)
    exact ih _ (hn ▸ hlt) _ rfl

/-- The loop over `GetOp` stops at the end of the script, not at an operation that is cut off. -/
def parsesToEnd (pc : CScript) : Bool :=
  match (operations pc).getLast? with
  | none => pc.isEmpty
  | some op => op.pc.isEmpty

theorem parsesToEnd_of_ok {pc : CScript} (h : (getOp2 pc).ok = true) :
    parsesToEnd pc = parsesToEnd (getOp2 pc).pc := by
  unfold parsesToEnd
  rw [operations_eq pc, if_pos h]
  cases operations (getOp2 pc).pc with
  | nil => rfl
  | cons op ops =>
    have hlast := List.getLast?_eq_some_getLast (List.cons_ne_nil op ops)
    rw [List.getLast?_cons_cons, hlast]

theorem parsesToEnd_of_not_ok {pc : CScript} (h : (getOp2 pc).ok = false) :
    parsesToEnd pc = pc.isEmpty := by
  unfold parsesToEnd
  rw [operations_eq pc, h]
  rfl

/-! Deleting the copies of a script from another one. -/

/-- Copies that follow each other are erased at once. -/
def eraseCopies (b : CScript) : ℕ → CScript → CScript × ℕ
  | 0, pc => (pc, 0)
  | turns + 1, pc =>
    if b.isPrefixOf pc then
      let (rest, nFound) := eraseCopies b turns (pc.drop b.length)
      (rest, nFound + 1)
    else (pc, 0)

/-- Copies are looked for where operations begin. -/
def findAndDeleteLoop (b : CScript) : ℕ → CScript → CScript × ℕ
  | 0, pc => (pc, 0)
  | turns + 1, pc =>
    let (pc, nHere) := eraseCopies b pc.length pc
    if (getOp2 pc).ok then
      let (rest, nFound) := findAndDeleteLoop b turns (getOp2 pc).pc
      (rawOp pc ++ rest, nHere + nFound)
    else (pc, nHere)

/-- The script without the copies of `b`, and the number of the copies. -/
def findAndDelete (script b : CScript) : CScript × ℕ :=
  if b.isEmpty then (script, 0) else findAndDeleteLoop b (script.length + 1) script

end Scrypta.Script
