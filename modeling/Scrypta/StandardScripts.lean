import Mathlib.Tactic.Tauto
import Scrypta.Interpreter
import Scrypta.Templates

/-! The standard scripts whose pushes are as short as possible, byte by byte. -/

namespace Scrypta.Interpreter

open Script

/-! Pushes. -/

/-- The opcode that `<<` chooses for bytes. -/
def pushOpcode (b : Bytes) : UInt8 :=
  if b.length < opPushData1.toNat then UInt8.ofNat b.length
  else if b.length ≤ 0xff then opPushData1
  else if b.length ≤ 0xffff then opPushData2
  else opPushData4

theorem push_append (opcode : UInt8) {b rest : Bytes}
    (h : b.length ≤ (b ++ rest).length % 2 ^ 32) :
    Op.push opcode b.length (b ++ rest) = ⟨true, opcode, b, rest⟩ := by
  unfold Op.push
  rw [if_neg (Nat.not_lt.2 h), List.take_left, List.drop_left]

/-- `<<` writes one of the forms that `GetOp` reads. -/
theorem pushHeader_pushData {b : Bytes} (h : b.length < 2 ^ 32) :
    ∃ header, PushHeader b.length header ∧ header.head? = some (pushOpcode b) ∧
      ScriptNum.pushData b = header ++ b := by
  have h1 : opPushData1.toNat = 76 := rfl
  have hlow : (UInt8.ofNat b.length).toNat = b.length % 256 := UInt8.toNat_ofNat'
  have hsecond : (UInt8.ofNat (b.length / 256)).toNat = b.length / 256 % 256 :=
    UInt8.toNat_ofNat'
  unfold ScriptNum.pushData pushOpcode
  by_cases hdirect : b.length < opPushData1.toNat
  · rw [if_pos hdirect, if_pos hdirect]
    have hn : (UInt8.ofNat b.length).toNat = b.length := toNat_ofNat_of_lt (by omega)
    have hlt : UInt8.ofNat b.length < opPushData1 := by
      rw [UInt8.lt_iff_toNat_lt, hn]
      exact hdirect
    have hheader := PushHeader.direct hlt
    rw [hn] at hheader
    exact ⟨_, hheader, rfl, rfl⟩
  · rw [if_neg hdirect, if_neg hdirect]
    by_cases hone : b.length ≤ 0xff
    · rw [if_pos hone, if_pos hone]
      have hheader := PushHeader.one (UInt8.ofNat b.length)
      rw [toNat_ofNat_of_lt (by omega)] at hheader
      exact ⟨_, hheader, rfl, rfl⟩
    · rw [if_neg hone, if_neg hone]
      by_cases htwo : b.length ≤ 0xffff
      · rw [if_pos htwo, if_pos htwo]
        have hheader := PushHeader.two (UInt8.ofNat b.length) (UInt8.ofNat (b.length / 256))
        have hsize : (UInt8.ofNat b.length).toNat + 256 * (UInt8.ofNat (b.length / 256)).toNat =
            b.length := by omega
        rw [hsize] at hheader
        exact ⟨_, hheader, rfl, rfl⟩
      · rw [if_neg htwo, if_neg htwo]
        have hthird : (UInt8.ofNat (b.length / 65536)).toNat = b.length / 65536 % 256 :=
          UInt8.toNat_ofNat'
        have hfourth : (UInt8.ofNat (b.length / 16777216)).toNat = b.length / 16777216 % 256 :=
          UInt8.toNat_ofNat'
        have hheader := PushHeader.four (UInt8.ofNat b.length) (UInt8.ofNat (b.length / 256))
          (UInt8.ofNat (b.length / 65536)) (UInt8.ofNat (b.length / 16777216))
        have hsize : (UInt8.ofNat b.length).toNat + 256 * (UInt8.ofNat (b.length / 256)).toNat +
            65536 * (UInt8.ofNat (b.length / 65536)).toNat +
            16777216 * (UInt8.ofNat (b.length / 16777216)).toNat = b.length := by omega
        rw [hsize] at hheader
        exact ⟨_, hheader, rfl, rfl⟩

theorem getOp2_pushData_eq {b : Bytes} (h : b.length < 2 ^ 32) (rest : CScript) :
    getOp2 (ScriptNum.pushData b ++ rest) = Op.push (pushOpcode b) b.length (b ++ rest) := by
  obtain ⟨header, hheader, hhead, heq⟩ := pushHeader_pushData h
  obtain ⟨opcode, hopcode, -, hget⟩ := hheader.getOp2_eq (b ++ rest)
  rw [hhead, Option.some.injEq] at hopcode
  rw [heq, List.append_assoc, hget, hopcode]

/-- A push is read where the 32-bit number of the bytes that are left is large enough. -/
theorem getOp2_pushData_of_fits {b : Bytes} {rest : CScript} (h : b.length < 2 ^ 32)
    (hfit : b.length ≤ (b ++ rest).length % 2 ^ 32) :
    getOp2 (ScriptNum.pushData b ++ rest) = ⟨true, pushOpcode b, b, rest⟩ := by
  rw [getOp2_pushData_eq h, push_append _ hfit]

theorem getOp2_pushData {b : Bytes} {rest : CScript} (h : b.length + rest.length < 2 ^ 32) :
    getOp2 (ScriptNum.pushData b ++ rest) = ⟨true, pushOpcode b, b, rest⟩ := by
  refine getOp2_pushData_of_fits (by omega) ?_
  rw [List.length_append, Nat.mod_eq_of_lt h]
  exact Nat.le_add_right _ _

theorem parses_pushData {b : Bytes} {rest : CScript} {ops : List (UInt8 × Bytes)}
    (h : b.length + rest.length < 2 ^ 32) :
    Parses (ScriptNum.pushData b ++ rest) ((pushOpcode b, b) :: ops) ↔ Parses rest ops := by
  rw [parses_cons_iff, getOp2_pushData h]
  simp

theorem pushOpcode_le (b : Bytes) : pushOpcode b ≤ opPushData4 := by
  unfold pushOpcode
  split
  · rename_i hlt
    have h1 : opPushData1.toNat = 76 := rfl
    have h4 : opPushData4.toNat = 78 := rfl
    rw [UInt8.le_iff_toNat_le, toNat_ofNat_of_lt (by omega)]
    omega
  · split
    · decide
    · split <;> decide

/-- Bytes that are no small number are pushed in the shortest way. -/
theorem checkMinimalPush_pushOpcode {b : Bytes} (hne : b.length ≠ 1) (h : b.length ≤ 0xffff) :
    checkMinimalPush b (pushOpcode b) = true := by
  have h1 : opPushData1.toNat = 76 := rfl
  unfold checkMinimalPush pushOpcode
  by_cases hzero : b.length = 0
  · rw [if_pos hzero, if_pos (by omega), hzero]
    rfl
  · rw [if_neg hzero, if_neg (fun hand => hne hand.1), if_neg (fun hand => hne hand.1)]
    by_cases hdirect : b.length < opPushData1.toNat
    · rw [if_pos hdirect, if_pos (by omega), toNat_ofNat_of_lt (by omega)]
      exact beq_self_eq_true _
    · rw [if_neg hdirect, if_neg (by omega)]
      by_cases hone : b.length ≤ 0xff
      · rw [if_pos hone, if_pos hone]
        rfl
      · rw [if_neg hone, if_neg hone, if_pos h, if_pos h]
        rfl

/-- All pushes of the script are as short as possible. -/
def pushesMinimally (script : CScript) : Bool :=
  (operations script).all fun op => opPushData4 < op.opcode || checkMinimalPush op.data op.opcode

theorem pushesMinimally_of_ok {pc : CScript} (h : (getOp2 pc).ok = true)
    (hmin : pushesMinimally pc = true) :
    ((getOp2 pc).opcode ≤ opPushData4 →
      checkMinimalPush (getOp2 pc).data (getOp2 pc).opcode = true) ∧
    pushesMinimally (getOp2 pc).pc = true := by
  unfold pushesMinimally at hmin ⊢
  rw [operations_eq, if_pos h, List.all_cons, Bool.and_eq_true, Bool.or_eq_true,
    decide_eq_true_eq] at hmin
  refine ⟨fun hle => hmin.1.resolve_left (UInt8.not_lt.2 hle), hmin.2⟩

/-- A push of that many bytes has its shortest form, or is not minimal. -/
theorem eq_pushData {pc : CScript} (hok : (getOp2 pc).ok = true)
    (hmin : pushesMinimally pc = true) (hlo : 2 ≤ (getOp2 pc).data.length)
    (hhi : (getOp2 pc).data.length ≤ 75) :
    pc = ScriptNum.pushData (getOp2 pc).data ++ (getOp2 pc).pc := by
  have hle : (getOp2 pc).opcode ≤ opPushData4 := by
    refine le_of_data_ne hok fun hnil => ?_
    rw [hnil] at hlo
    exact absurd hlo (by decide)
  have hpush := (pushesMinimally_of_ok hok hmin).1 hle
  unfold checkMinimalPush at hpush
  rw [if_neg (by omega), if_neg (by omega), if_neg (by omega), if_pos hhi, beq_iff_eq] at hpush
  cases pc with
  | nil => cases hok
  | cons opcode pc =>
    have hop := opcode_of_ok hok
    rw [hop] at hle hpush
    have h1 : opPushData1.toNat = 76 := rfl
    have hlt : opcode < opPushData1 := by
      rw [UInt8.lt_iff_toNat_lt]
      omega
    have hget : getOp2 (opcode :: pc) = Op.push opcode opcode.toNat pc := by
      simp only [getOp2, if_neg (UInt8.not_lt.2 hle), if_pos hlt]
    rw [hget] at hok hpush hhi ⊢
    obtain ⟨hsize, heq⟩ := Op.push_ok hok
    rw [heq] at hpush hhi ⊢
    dsimp only at hpush hhi ⊢
    unfold ScriptNum.pushData
    rw [if_pos (by omega), ← hpush, UInt8.ofNat_toNat, List.cons_append, List.take_append_drop]

/-! What `Solver` has matched. -/

def payToPubKey (key : Bytes) : CScript := ScriptNum.pushData key ++ [opCheckSig]

def payToPubKeyHash (hash : Bytes) : CScript :=
  opDup :: opHash160 :: (ScriptNum.pushData hash ++ [opEqualVerify, opCheckSig])

def payToMultisig (m : ℕ) (keys : List Bytes) : CScript :=
  opN m :: (keys.flatMap ScriptNum.pushData ++ [opN keys.length, opCheckMultiSig])

theorem pushesMinimally_cons {opcode : UInt8} (h : opPushData4 < opcode) (rest : CScript) :
    pushesMinimally (opcode :: rest) = pushesMinimally rest := by
  rw [pushesMinimally, operations_eq, getOp2_of_lt h, if_pos rfl, List.all_cons,
    decide_eq_true h]
  rfl

/-- A minimal push of a parsed script, taken off it. -/
theorem exists_pushData {pc : CScript} {opcode : UInt8} {data : Bytes}
    {ops : List (UInt8 × Bytes)} (hmin : pushesMinimally pc = true)
    (h : Parses pc ((opcode, data) :: ops)) (hlo : 2 ≤ data.length) (hhi : data.length ≤ 75) :
    ∃ rest, pc = ScriptNum.pushData data ++ rest ∧ Parses rest ops := by
  obtain ⟨hok, -, rfl, hrest⟩ := parses_cons_iff.1 h
  exact ⟨_, eq_pushData hok hmin hlo hhi, hrest⟩

theorem solved_pubkey {s : CScript} (htype : (solver s []).whichType = .pubkey)
    (hmin : pushesMinimally s = true) :
    ∃ key, s = payToPubKey key ∧ 33 ≤ key.length ∧ key.length ≤ 65 ∧
      (solver s []).vSolutions = [key] := by
  have hstandard := standard_of_solved htype (by decide) fun h => (nomatch h)
  generalize (solver s []).vSolutions = v at hstandard ⊢
  cases hstandard with
  | @pubkey opcode key hsize hparses =>
    obtain ⟨hlo, hhi⟩ := hsize
    obtain ⟨s1, rfl, hlast⟩ := exists_pushData hmin hparses (by omega) (by omega)
    obtain ⟨s2, rfl, hend⟩ := (parses_opcode_iff (by decide)).1 hlast
    obtain rfl := parses_nil_iff.1 hend
    exact ⟨key, rfl, hlo, hhi, rfl⟩

theorem solved_pubkeyhash {s : CScript} (htype : (solver s []).whichType = .pubkeyhash)
    (hmin : pushesMinimally s = true) :
    ∃ hash, s = payToPubKeyHash hash ∧ hash.length = 20 ∧
      (solver s []).vSolutions = [hash] := by
  have hstandard := standard_of_solved htype (by decide) fun h => (nomatch h)
  generalize (solver s []).vSolutions = v at hstandard ⊢
  cases hstandard with
  | @pubkeyhash opcode hash hlen hparses =>
    obtain ⟨s1, rfl, h1⟩ := (parses_opcode_iff (by decide)).1 hparses
    obtain ⟨s2, rfl, h2⟩ := (parses_opcode_iff (by decide)).1 h1
    rw [pushesMinimally_cons (by decide), pushesMinimally_cons (by decide)] at hmin
    obtain ⟨s3, rfl, h3⟩ := exists_pushData hmin h2 (by omega) (by omega)
    obtain ⟨s4, rfl, h4⟩ := (parses_opcode_iff (by decide)).1 h3
    obtain ⟨s5, rfl, h5⟩ := (parses_opcode_iff (by decide)).1 h4
    obtain rfl := parses_nil_iff.1 h5
    exact ⟨hash, rfl, hlen, rfl⟩

/-- A push takes a few bytes more than its data. -/
theorem length_le_of_ok {pc : CScript} (hok : (getOp2 pc).ok = true) :
    pc.length ≤ (getOp2 pc).data.length + (getOp2 pc).pc.length + 5 := by
  rcases getOp2_cases (ne_nil_of_getOp2_ok hok) with
    ⟨opcode, rest, hlt, heq⟩ | ⟨-, header, hheader, -, heq⟩ | ⟨-, hcut⟩
  · rw [heq, getOp2_of_lt hlt, List.length_cons]
    dsimp only
    omega
  · have hlen := congrArg List.length heq
    have hmax := hheader.length_le
    rw [List.length_append, List.length_append] at hlen
    omega
  · omega

section PushesKeys

variable {rest pc : CScript} {keys : List Bytes}

theorem PushesKeys.length_le (h : PushesKeys rest keys pc) :
    pc.length ≤ 70 * keys.length + rest.length := by
  induction h with
  | nil => omega
  | cons hok hsize _ ih =>
    have hlen := length_le_of_ok hok
    rw [List.length_cons]
    omega

end PushesKeys

/-- A multisig script: a number, pushes of keys, their number and the opcode. -/
structure MultisigScript (m : ℕ) (keys : List Bytes) (s : CScript) : Prop where
  one_le : 1 ≤ m
  le_length : m ≤ keys.length
  length_le : keys.length ≤ 16
  pushes : ∃ pc, s = opN m :: pc ∧ PushesKeys [opN keys.length, opCheckMultiSig] keys pc

theorem MultisigScript.two_le_length {m : ℕ} {keys : List Bytes} {s : CScript}
    (h : MultisigScript m keys s) : 2 ≤ s.length := by
  obtain ⟨pc, rfl, hpushes⟩ := h.pushes
  have hne : pc ≠ [] := by
    cases hpushes with
    | nil => exact List.cons_ne_nil _ _
    | cons hok _ _ => exact ne_nil_of_getOp2_ok hok
  have hpos := List.length_pos_iff.2 hne
  rw [List.length_cons]
  omega

theorem MultisigScript.length_lt {m : ℕ} {keys : List Bytes} {s : CScript}
    (h : MultisigScript m keys s) : s.length < 2 ^ 32 := by
  obtain ⟨pc, rfl, hpushes⟩ := h.pushes
  have hlen := hpushes.length_le
  have hmax := h.length_le
  rw [List.length_cons, List.length_singleton] at hlen
  rw [List.length_cons]
  omega

/-- What `Solver` takes for a multisig script is one, and its keys and numbers are the solutions. -/
theorem multisigScript_of_solved {s : CScript} (htype : (solver s []).whichType = .multisig)
    (hok : (solver s []).ok = true) : ∃ m keys, MultisigScript m keys s ∧
      (solver s []).vSolutions = [UInt8.ofNat m] :: (keys ++ [[UInt8.ofNat keys.length]]) := by
  have hstandard := standard_of_solved htype (by decide) fun _ => hok
  generalize (solver s []).vSolutions = v at hstandard ⊢
  cases hstandard with
  | @multisig m pushes hm hle hmax hall hparses =>
    have hlen : (pushes.map Prod.snd).length = pushes.length := List.length_map _
    obtain ⟨pc, rfl, hkeys⟩ :=
      (parses_opcode_iff (opPushData4_lt_opN ⟨hm, Nat.le_trans hle hmax⟩)).1 hparses
    obtain ⟨rest, hpushes, htail⟩ := exists_pushesKeys hall hkeys
    obtain ⟨s1, rfl, h1⟩ :=
      (parses_opcode_iff (opPushData4_lt_opN ⟨Nat.le_trans hm hle, hmax⟩)).1 htail
    obtain ⟨s2, rfl, h2⟩ := (parses_opcode_iff (by decide)).1 h1
    obtain rfl := parses_nil_iff.1 h2
    rw [← hlen] at hpushes hle hmax ⊢
    exact ⟨m, pushes.map Prod.snd, ⟨hm, hle, hmax, pc, rfl, hpushes⟩, rfl⟩

/-! Dropping a signature from a script that does not push it. -/

theorem length_le_pushData (b : Bytes) : b.length ≤ (ScriptNum.pushData b).length := by
  unfold ScriptNum.pushData
  split_ifs <;> simp only [List.length_cons] <;> omega

theorem isPrefixOf_pushData {b pc : Bytes} (hsize : pc.length < 2 ^ 32)
    (h : (ScriptNum.pushData b).isPrefixOf pc = true) :
    (getOp2 pc).ok = true ∧ (getOp2 pc).data = b := by
  obtain ⟨rest, rfl⟩ := List.isPrefixOf_iff_prefix.1 h
  have hle := length_le_pushData b
  rw [List.length_append] at hsize
  rw [getOp2_pushData (by omega)]
  exact ⟨rfl, rfl⟩

theorem eraseCopies_of_ne {b pc : Bytes} (h : b.isPrefixOf pc = false) (turns : ℕ) :
    eraseCopies b turns pc = (pc, 0) := by
  cases turns with
  | zero => rfl
  | succ turns =>
    rw [eraseCopies, h]
    rfl

theorem findAndDeleteLoop_of_ne {b : Bytes} (turns : ℕ) {pc : CScript} (hsize : pc.length < 2 ^ 32)
    (h : ∀ op ∈ operations pc, op.data ≠ b) :
    findAndDeleteLoop (ScriptNum.pushData b) turns pc = (pc, 0) := by
  induction turns generalizing pc with
  | zero => rfl
  | succ turns ih =>
    have hne : (ScriptNum.pushData b).isPrefixOf pc = false := by
      by_contra hpre
      rw [Bool.not_eq_false] at hpre
      obtain ⟨hok, hdata⟩ := isPrefixOf_pushData hsize hpre
      refine h (getOp2 pc) ?_ hdata
      rw [operations_eq, if_pos hok]
      exact List.mem_cons_self
    rw [findAndDeleteLoop, eraseCopies_of_ne hne]
    dsimp only
    split
    · rename_i hok
      have hlt := length_getOp2_lt (ne_nil_of_getOp2_ok hok)
      rw [ih (Nat.lt_trans hlt hsize) fun op hop => h op (by
        rw [operations_eq, if_pos hok]
        exact List.mem_cons_of_mem _ hop)]
      dsimp only
      rw [rawOp_append]
    · rfl

/-- A signature that is not pushed by the script is not found. -/
theorem dropSignature_of_ne {script : CScript} {vchSig : Bytes} (hsize : script.length < 2 ^ 32)
    (h : ∀ op ∈ operations script, op.data ≠ vchSig) : dropSignature script vchSig = script := by
  unfold dropSignature findAndDelete
  split
  · rfl
  · rw [findAndDeleteLoop_of_ne _ hsize h]

theorem operations_pushData {b : Bytes} {rest : CScript} (h : b.length + rest.length < 2 ^ 32) :
    operations (ScriptNum.pushData b ++ rest) =
      ⟨true, pushOpcode b, b, rest⟩ :: operations rest := by
  rw [operations_eq, getOp2_pushData h]
  rfl

theorem operations_cons {opcode : UInt8} (h : opPushData4 < opcode) (rest : CScript) :
    operations (opcode :: rest) = ⟨true, opcode, [], rest⟩ :: operations rest := by
  rw [operations_eq, getOp2_of_lt h]
  rfl

theorem operations_nil : operations [] = [] := rfl

/-- The data that a script pushes. -/
def pushedData (script : CScript) : List Bytes := (operations script).map Op.data

theorem dropSignature_eq_self {script : CScript} {vchSig : Bytes} (hsize : script.length < 2 ^ 32)
    (h : vchSig ∉ pushedData script) : dropSignature script vchSig = script :=
  dropSignature_of_ne hsize fun _ hop heq => h (heq ▸ List.mem_map_of_mem hop)

theorem pushedData_pushData {b : Bytes} {rest : CScript} (h : b.length + rest.length < 2 ^ 32) :
    pushedData (ScriptNum.pushData b ++ rest) = b :: pushedData rest := by
  rw [pushedData, operations_pushData h]
  rfl

theorem pushedData_cons {opcode : UInt8} (h : opPushData4 < opcode) (rest : CScript) :
    pushedData (opcode :: rest) = [] :: pushedData rest := by
  rw [pushedData, operations_cons h]
  rfl

theorem PushesKeys.mem_pushedData {rest pc : CScript} {keys : List Bytes}
    (h : PushesKeys rest keys pc) {b : Bytes} (hb : b ∈ pushedData pc) :
    b ∈ keys ∨ b ∈ pushedData rest := by
  induction h with
  | nil => exact Or.inr hb
  | cons hok _ _ ih =>
    rw [pushedData, operations_eq, if_pos hok] at hb
    cases List.mem_cons.1 hb with
    | inl heq => exact Or.inl (heq ▸ List.mem_cons_self)
    | inr hmem => exact (ih hmem).imp_left (List.mem_cons_of_mem _)

/-- The data of the standard scripts is the key, the hash or the keys in them. -/
theorem mem_pushedData_pubKey {key b : Bytes} (h : key.length ≤ 65)
    (hb : b ∈ pushedData (payToPubKey key)) : b = key ∨ b = [] := by
  rw [payToPubKey, pushedData_pushData (by simp only [List.length_singleton]; omega),
    pushedData_cons (by decide)] at hb
  simpa [pushedData, operations_nil] using hb

theorem mem_pushedData_pubKeyHash {hash b : Bytes} (h : hash.length = 20)
    (hb : b ∈ pushedData (payToPubKeyHash hash)) : b = hash ∨ b = [] := by
  rw [payToPubKeyHash, pushedData_cons (by decide), pushedData_cons (by decide),
    pushedData_pushData (by simp only [List.length_cons, List.length_nil]; omega),
    pushedData_cons (by decide), pushedData_cons (by decide)] at hb
  simp only [pushedData, operations_nil, List.map_nil, List.mem_cons, List.not_mem_nil,
    or_false] at hb
  tauto

theorem MultisigScript.mem_pushedData {m : ℕ} {keys : List Bytes} {s : CScript} {b : Bytes}
    (h : MultisigScript m keys s) (hb : b ∈ pushedData s) : b ∈ keys ∨ b = [] := by
  obtain ⟨pc, rfl, hpushes⟩ := h.pushes
  have hone := h.one_le
  have hle := h.le_length
  have hmax := h.length_le
  rw [pushedData_cons (opPushData4_lt_opN (by omega))] at hb
  cases List.mem_cons.1 hb with
  | inl hnil => exact Or.inr hnil
  | inr hmem =>
    refine (hpushes.mem_pushedData hmem).imp_right fun hrest => ?_
    rw [pushedData_cons (opPushData4_lt_opN (by omega)), pushedData_cons (by decide)] at hrest
    simpa [pushedData, operations_nil] using hrest

end Scrypta.Interpreter
