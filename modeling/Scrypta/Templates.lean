import Mathlib.Tactic.Tauto
import Scrypta.ScriptParse
import Scrypta.Solver

/-! Which scripts `Solver` recognises: those that parse, to their end, as the operations of a
template. -/

namespace Scrypta.Interpreter

open Script

theorem toNat_ofNat_of_lt {n : ℕ} (h : n < 256) : (UInt8.ofNat n).toNat = n := by
  rw [UInt8.toNat_ofNat']
  exact Nat.mod_eq_of_lt h

/-- `EncodeOP_N` for the numbers from 1 to 16. -/
def opN (n : ℕ) : UInt8 := UInt8.ofNat (n + 80)

theorem opPushData4_lt_opN {n : ℕ} (h : 1 ≤ n ∧ n ≤ 16) : opPushData4 < opN n := by
  have h4 : opPushData4.toNat = 78 := rfl
  rw [opN, UInt8.lt_iff_toNat_lt, toNat_ofNat_of_lt (by omega)]
  omega

set_option maxRecDepth 2000 in
/-- `OP_1` to `OP_16` are the opcodes of the numbers that `DecodeOP_N` gives. -/
theorem eq_opN {opcode : UInt8} (h : op1 ≤ opcode ∧ opcode ≤ op16) :
    1 ≤ (decodeOpN opcode).toNat ∧ (decodeOpN opcode).toNat ≤ 16 ∧
      opcode = opN (decodeOpN opcode).toNat := by
  have hall : ∀ n : Fin 256, op1 ≤ UInt8.ofFin n → UInt8.ofFin n ≤ op16 →
      1 ≤ (decodeOpN (UInt8.ofFin n)).toNat ∧ (decodeOpN (UInt8.ofFin n)).toNat ≤ 16 ∧
        UInt8.ofFin n = opN (decodeOpN (UInt8.ofFin n)).toNat := by decide
  exact hall opcode.toFin h.1 h.2

theorem decodeOpN_op0 : (decodeOpN op0).toNat = 0 := rfl

theorem lt_of_small {opcode : UInt8} (h : op1 ≤ opcode ∧ opcode ≤ op16) :
    opPushData4 < opcode := by
  have hlo := UInt8.le_iff_toNat_le.1 h.1
  have h1 : op1.toNat = 81 := rfl
  have h4 : opPushData4.toNat = 78 := rfl
  rw [UInt8.lt_iff_toNat_lt]
  omega

/-- The script goes on with pushes of these keys, of whatever form, and then with the rest. -/
inductive PushesKeys (rest : CScript) : List Bytes → CScript → Prop
  | nil : PushesKeys rest [] rest
  | cons {pc : CScript} {keys : List Bytes} : (getOp2 pc).ok = true →
      33 ≤ (getOp2 pc).data.length ∧ (getOp2 pc).data.length ≤ 65 →
      PushesKeys rest keys (getOp2 pc).pc → PushesKeys rest ((getOp2 pc).data :: keys) pc

end Scrypta.Interpreter

namespace Scrypta.Script

open Interpreter

/-- The script parses, to its end, as operations with these opcodes and data. -/
def Parses (pc : CScript) (ops : List (UInt8 × Bytes)) : Prop :=
  parsesToEnd pc = true ∧ (operations pc).map (fun op => (op.opcode, op.data)) = ops

/-- The size of a public key. -/
def KeySized (data : Bytes) : Prop := 33 ≤ data.length ∧ data.length ≤ 65

/-- The standard scripts, with the solutions that belong to them. -/
inductive Standard (s : CScript) : TxnOutType → List Bytes → Prop
  | scripthash {hash : Bytes} : hash.length = 20 → s = [opHash160, 0x14] ++ hash ++ [opEqual] →
      Standard s .scripthash [hash]
  | nulldata {pushes : List (UInt8 × Bytes)} : (∀ p ∈ pushes, p.1 ≤ op16) →
      Parses s ((opReturn, []) :: pushes) → Standard s .nulldata []
  | pubkey {opcode : UInt8} {key : Bytes} : KeySized key →
      Parses s [(opcode, key), (opCheckSig, [])] → Standard s .pubkey [key]
  | pubkeyhash {opcode : UInt8} {hash : Bytes} : hash.length = 20 →
      Parses s [(opDup, []), (opHash160, []), (opcode, hash), (opEqualVerify, []),
        (opCheckSig, [])] →
      Standard s .pubkeyhash [hash]
  | multisig {m : ℕ} {pushes : List (UInt8 × Bytes)} : 1 ≤ m → m ≤ pushes.length →
      pushes.length ≤ 16 → (∀ p ∈ pushes, KeySized p.2) →
      Parses s ((opN m, []) :: (pushes ++ [(opN pushes.length, []), (opCheckMultiSig, [])])) →
      Standard s .multisig
        ([UInt8.ofNat m] :: (pushes.map Prod.snd ++ [[UInt8.ofNat pushes.length]]))

section Parses

variable {pc : CScript} {opcode : UInt8} {data : Bytes} {ops ops' : List (UInt8 × Bytes)}

theorem parses_nil_iff : Parses pc [] ↔ pc = [] := by
  constructor
  · rintro ⟨hend, hops⟩
    rw [List.map_eq_nil_iff] at hops
    rw [parsesToEnd, hops] at hend
    exact List.isEmpty_iff.1 hend
  · rintro rfl
    exact ⟨rfl, rfl⟩

theorem parses_cons_iff : Parses pc ((opcode, data) :: ops) ↔
    (getOp2 pc).ok = true ∧ (getOp2 pc).opcode = opcode ∧ (getOp2 pc).data = data ∧
      Parses (getOp2 pc).pc ops := by
  by_cases hok : (getOp2 pc).ok = true
  · rw [Parses, Parses, parsesToEnd_of_ok hok, operations_eq pc, if_pos hok, List.map_cons,
      List.cons.injEq, Prod.mk.injEq]
    tauto
  · refine iff_of_false (fun h => ?_) fun h => hok h.1
    have hops := h.2
    rw [operations_eq pc, if_neg hok] at hops
    cases hops

theorem parses_opcode_iff (hlt : opPushData4 < opcode) :
    Parses pc ((opcode, []) :: ops) ↔ ∃ rest, pc = opcode :: rest ∧ Parses rest ops := by
  rw [parses_cons_iff]
  constructor
  · rintro ⟨hok, rfl, -, hrest⟩
    exact ⟨_, eq_cons_of_lt hok hlt, hrest⟩
  · rintro ⟨rest, rfl, hrest⟩
    rw [getOp2_of_lt hlt]
    exact ⟨rfl, rfl, rfl, hrest⟩

/-- A script of pushes parses as them. -/
theorem isPushOnly_iff : isPushOnly pc = true ↔ ∃ ops, (∀ p ∈ ops, p.1 ≤ op16) ∧ Parses pc ops := by
  have hloop : ∀ turns (pc : CScript), pc.length ≤ turns →
      (pushOnlyLoop turns pc = true ↔ ∃ ops, (∀ p ∈ ops, p.1 ≤ op16) ∧ Parses pc ops) := by
    intro turns
    induction turns with
    | zero =>
      intro pc hlen
      obtain rfl : pc = [] := List.eq_nil_of_length_eq_zero (Nat.le_zero.1 hlen)
      exact iff_of_true rfl ⟨[], nofun, rfl, rfl⟩
    | succ turns ih =>
      intro pc hlen
      rw [pushOnlyLoop]
      cases pc with
      | nil => exact iff_of_true rfl ⟨[], nofun, rfl, rfl⟩
      | cons opcode pc =>
        have hlt := length_getOp2_lt (List.cons_ne_nil opcode pc)
        rw [List.isEmpty_cons, if_neg Bool.false_ne_true, Bool.and_eq_true, Bool.and_eq_true,
          decide_eq_true_eq, ih _ (by omega)]
        constructor
        · rintro ⟨⟨hok, hle⟩, ops, hops, hrest⟩
          refine ⟨((getOp2 (opcode :: pc)).opcode, (getOp2 (opcode :: pc)).data) :: ops, ?_,
            parses_cons_iff.2 ⟨hok, rfl, rfl, hrest⟩⟩
          intro p hp
          rcases List.mem_cons.1 hp with rfl | hp
          · exact hle
          · exact hops p hp
        · rintro ⟨ops, hops, hparses⟩
          cases ops with
          | nil => cases parses_nil_iff.1 hparses
          | cons p ops =>
            obtain ⟨hok, hop, -, hrest⟩ := parses_cons_iff.1 hparses
            exact ⟨⟨hok, hop ▸ hops p List.mem_cons_self⟩, ops,
              fun p hp => hops p (List.mem_cons_of_mem _ hp), hrest⟩
  exact hloop pc.length pc (Nat.le_refl _)

end Parses

section Templates

variable {turns : ℕ} {pc1 pc2 s : CScript} {opcode : UInt8} {vSolutions found : List Bytes}

theorem ok_of_matchTemplate
    (h : matchTemplate (turns + 1) pc1 (opcode :: pc2) vSolutions = some found) :
    (getOp2 pc1).ok = true := by
  rw [matchTemplate] at h
  simp only [List.isEmpty_cons, Bool.and_false, Bool.false_eq_true, if_false] at h
  by_contra hok
  rw [Bool.not_eq_true] at hok
  rw [hok] at h
  cases h

theorem matchTemplate_opcode_iff (hpush : opPushData4 < opcode) (hkeys : opcode ≠ opPubKeys) :
    matchTemplate (turns + 1) pc1 (opcode :: pc2) vSolutions = some found ↔
      (getOp2 pc1).ok = true ∧
        ∃ v, matchOpcode (getOp2 pc1) ⟨true, opcode, [], pc2⟩ vSolutions = some v ∧
          matchTemplate turns (getOp2 pc1).pc pc2 v = some found := by
  constructor
  · intro h
    exact ⟨ok_of_matchTemplate h, matchTemplate_cons hpush hkeys h⟩
  · rintro ⟨hok, v, hv, hrest⟩
    rw [matchTemplate]
    simp only [getOp2_of_lt hpush, List.isEmpty_cons, Bool.and_false, Bool.false_eq_true,
      if_false, hkeys, hok, Bool.not_true, Bool.or_self]
    rw [hv]
    exact hrest

theorem matchTemplate_nil_iff :
    matchTemplate (turns + 1) pc1 [] vSolutions = some found ↔ pc1 = [] ∧ found = vSolutions := by
  rw [matchTemplate]
  cases pc1 with
  | nil => exact ⟨fun h => ⟨rfl, (Option.some.inj h).symm⟩, fun h => congrArg some h.2.symm⟩
  | cons opcode pc1 =>
    simp only [List.isEmpty_cons, Bool.false_and, Bool.false_eq_true, if_false, getOp2_nil,
      Op.cut, Bool.not_false, Bool.or_true, if_true]
    exact ⟨fun h => absurd h.symm (Option.some_ne_none _), fun h => absurd h.1 (List.cons_ne_nil _ _)⟩

theorem matchTemplate_literal_iff (hpush : opPushData4 < opcode)
    (hhole : opcode ≠ opPubKeys ∧ opcode ≠ opPubKey ∧ opcode ≠ opPubKeyHash ∧
      opcode ≠ opSmallInteger) :
    matchTemplate (turns + 1) pc1 (opcode :: pc2) vSolutions = some found ↔
      ∃ rest, pc1 = opcode :: rest ∧ matchTemplate turns rest pc2 vSolutions = some found := by
  rw [matchTemplate_opcode_iff hpush hhole.1]
  constructor
  · rintro ⟨hok, v, hmatch, hrest⟩
    obtain rfl := matchOpcode_literal hhole.2.1 hhole.2.2.1 hhole.2.2.2 hmatch
    rw [matchOpcode, if_neg hhole.2.1, if_neg hhole.2.2.1, if_neg hhole.2.2.2] at hmatch
    split at hmatch
    · cases hmatch
    · rename_i hsame
      have hop : (getOp2 pc1).opcode = opcode := not_not.1 fun hne => hsame (Or.inl hne)
      have hcons := eq_cons_of_lt hok (hop.symm ▸ hpush)
      rw [hop] at hcons
      exact ⟨(getOp2 pc1).pc, hcons, hrest⟩
  · rintro ⟨rest, rfl, hrest⟩
    rw [getOp2_of_lt hpush]
    refine ⟨rfl, vSolutions, ?_, hrest⟩
    rw [matchOpcode, if_neg hhole.2.1, if_neg hhole.2.2.1, if_neg hhole.2.2.2, if_neg (by simp)]

theorem matchTemplate_key_iff :
    matchTemplate (turns + 1) pc1 (opPubKey :: pc2) vSolutions = some found ↔
      (getOp2 pc1).ok = true ∧ KeySized (getOp2 pc1).data ∧
        matchTemplate turns (getOp2 pc1).pc pc2 (vSolutions ++ [(getOp2 pc1).data]) =
          some found := by
  rw [matchTemplate_opcode_iff (by decide) (by decide)]
  refine and_congr_right fun _ => ?_
  rw [matchOpcode, if_pos rfl]
  by_cases hsize : (getOp2 pc1).data.length < 33 ∨ 65 < (getOp2 pc1).data.length
  · rw [if_pos hsize]
    refine iff_of_false (fun h => h.elim fun _ hv => Option.some_ne_none _ hv.1.symm) fun h => ?_
    unfold KeySized at h
    omega
  · rw [if_neg hsize]
    have hkey : KeySized (getOp2 pc1).data := by
      unfold KeySized
      omega
    simp [hkey]

theorem matchTemplate_hash_iff :
    matchTemplate (turns + 1) pc1 (opPubKeyHash :: pc2) vSolutions = some found ↔
      (getOp2 pc1).ok = true ∧ (getOp2 pc1).data.length = 20 ∧
        matchTemplate turns (getOp2 pc1).pc pc2 (vSolutions ++ [(getOp2 pc1).data]) =
          some found := by
  rw [matchTemplate_opcode_iff (by decide) (by decide)]
  refine and_congr_right fun _ => ?_
  rw [matchOpcode, if_neg (show opPubKeyHash ≠ opPubKey by decide), if_pos rfl]
  by_cases hsize : (getOp2 pc1).data.length = 20
  · rw [if_neg (not_not.2 hsize)]
    simp [hsize]
  · rw [if_pos hsize]
    exact iff_of_false (fun h => h.elim fun _ hv => Option.some_ne_none _ hv.1.symm) fun h =>
      hsize h.1

theorem matchTemplate_pubkey_iff :
    matchTemplate 3 s [opPubKey, opCheckSig] [] = some found ↔
      ∃ opcode key, KeySized key ∧ Parses s [(opcode, key), (opCheckSig, [])] ∧
        found = [key] := by
  rw [matchTemplate_key_iff]
  constructor
  · rintro ⟨hok, hsize, hrest⟩
    obtain ⟨rest, hcons, hlast⟩ := (matchTemplate_literal_iff (by decide) (by decide)).1 hrest
    obtain ⟨hnil, hfound⟩ := matchTemplate_nil_iff.1 hlast
    refine ⟨_, _, hsize, parses_cons_iff.2 ⟨hok, rfl, rfl, ?_⟩, hfound⟩
    exact (parses_opcode_iff (by decide)).2 ⟨rest, hcons, parses_nil_iff.2 hnil⟩
  · rintro ⟨opcode, key, hsize, hparses, rfl⟩
    obtain ⟨hok, -, hdata, hlast⟩ := parses_cons_iff.1 hparses
    obtain ⟨rest, hcons, hend⟩ := (parses_opcode_iff (by decide)).1 hlast
    subst hdata
    refine ⟨hok, hsize, ?_⟩
    rw [matchTemplate_literal_iff (by decide) (by decide)]
    exact ⟨rest, hcons, matchTemplate_nil_iff.2 ⟨parses_nil_iff.1 hend, rfl⟩⟩

theorem matchTemplate_pubkeyhash_iff :
    matchTemplate 6 s [opDup, opHash160, opPubKeyHash, opEqualVerify, opCheckSig] [] = some found ↔
      ∃ opcode hash, hash.length = 20 ∧
        Parses s [(opDup, []), (opHash160, []), (opcode, hash), (opEqualVerify, []),
          (opCheckSig, [])] ∧ found = [hash] := by
  constructor
  · intro h
    obtain ⟨s1, hdup, h1⟩ := (matchTemplate_literal_iff (by decide) (by decide)).1 h
    obtain ⟨s2, hhash160, h2⟩ := (matchTemplate_literal_iff (by decide) (by decide)).1 h1
    obtain ⟨hok, hsize, h3⟩ := matchTemplate_hash_iff.1 h2
    obtain ⟨s4, hverify, h4⟩ := (matchTemplate_literal_iff (by decide) (by decide)).1 h3
    obtain ⟨s5, hsig, h5⟩ := (matchTemplate_literal_iff (by decide) (by decide)).1 h4
    obtain ⟨hnil, hfound⟩ := matchTemplate_nil_iff.1 h5
    have hlast : Parses s4 [(opCheckSig, [])] :=
      (parses_opcode_iff (by decide)).2 ⟨s5, hsig, parses_nil_iff.2 hnil⟩
    have htail : Parses (getOp2 s2).pc [(opEqualVerify, []), (opCheckSig, [])] :=
      (parses_opcode_iff (by decide)).2 ⟨s4, hverify, hlast⟩
    have hpush : Parses s2 [((getOp2 s2).opcode, (getOp2 s2).data), (opEqualVerify, []),
        (opCheckSig, [])] := parses_cons_iff.2 ⟨hok, rfl, rfl, htail⟩
    exact ⟨_, _, hsize, (parses_opcode_iff (by decide)).2 ⟨s1, hdup,
      (parses_opcode_iff (by decide)).2 ⟨s2, hhash160, hpush⟩⟩, hfound⟩
  · rintro ⟨opcode, hash, hsize, hparses, rfl⟩
    obtain ⟨s1, hdup, h1⟩ := (parses_opcode_iff (by decide)).1 hparses
    obtain ⟨s2, hhash160, h2⟩ := (parses_opcode_iff (by decide)).1 h1
    obtain ⟨hok, -, hdata, h3⟩ := parses_cons_iff.1 h2
    obtain ⟨s4, hverify, h4⟩ := (parses_opcode_iff (by decide)).1 h3
    obtain ⟨s5, hsig, h5⟩ := (parses_opcode_iff (by decide)).1 h4
    have hnil := parses_nil_iff.1 h5
    subst hdata
    rw [matchTemplate_literal_iff (by decide) (by decide)]
    refine ⟨s1, hdup, ?_⟩
    rw [matchTemplate_literal_iff (by decide) (by decide)]
    refine ⟨s2, hhash160, matchTemplate_hash_iff.2 ⟨hok, hsize, ?_⟩⟩
    rw [matchTemplate_literal_iff (by decide) (by decide)]
    refine ⟨s4, hverify, ?_⟩
    rw [matchTemplate_literal_iff (by decide) (by decide)]
    exact ⟨s5, hsig, matchTemplate_nil_iff.2 ⟨hnil, rfl⟩⟩

/-- `OP_0` and `OP_1` to `OP_16`. -/
def Small (opcode : UInt8) : Prop := opcode = op0 ∨ (op1 ≤ opcode ∧ opcode ≤ op16)

theorem ok_of_smallInteger {pc : CScript} (h : Small (getOp2 pc).opcode) :
    (getOp2 pc).ok = true ∧ (getOp2 pc).data = [] := by
  have hok : (getOp2 pc).ok = true := by
    by_contra hok
    rw [Bool.not_eq_true] at hok
    rw [(cut_of_not_ok hok).1] at h
    exact absurd h (by unfold Small; decide)
  refine ⟨hok, ?_⟩
  rcases h with hzero | hsmall
  · cases pc with
    | nil => cases hok
    | cons opcode pc =>
      rw [opcode_of_ok hok] at hzero
      subst hzero
      rfl
  · exact data_of_lt hok (lt_of_small hsmall)

theorem small_of_positive (h : Small opcode) (hpos : 1 ≤ (decodeOpN opcode).toNat) :
    op1 ≤ opcode ∧ opcode ≤ op16 := by
  refine h.resolve_left fun hzero => ?_
  rw [hzero, decodeOpN_op0] at hpos
  exact absurd hpos (by decide)

theorem matchOpcode_small_iff {script1 : Op} :
    matchOpcode script1 ⟨true, opSmallInteger, [], pc2⟩ vSolutions = some found ↔
      Small script1.opcode ∧ found = vSolutions ++ [[decodeOpN script1.opcode]] := by
  rw [matchOpcode, if_neg (show opSmallInteger ≠ opPubKey by decide),
    if_neg (show opSmallInteger ≠ opPubKeyHash by decide), if_pos rfl]
  split
  · next hsmall =>
    exact ⟨fun h => ⟨hsmall, (Option.some.inj h).symm⟩, fun h => congrArg some h.2.symm⟩
  · next hsmall => exact ⟨fun h => absurd h.symm (Option.some_ne_none _), fun h => absurd h.1 hsmall⟩

theorem matchTemplate_small_iff :
    matchTemplate (turns + 1) pc1 (opSmallInteger :: pc2) vSolutions = some found ↔
      Small (getOp2 pc1).opcode ∧ matchTemplate turns (getOp2 pc1).pc pc2
        (vSolutions ++ [[decodeOpN (getOp2 pc1).opcode]]) = some found := by
  rw [matchTemplate_opcode_iff (by decide) (by decide)]
  constructor
  · rintro ⟨-, v, hv, hrest⟩
    obtain ⟨hsmall, rfl⟩ := matchOpcode_small_iff.1 hv
    exact ⟨hsmall, hrest⟩
  · rintro ⟨hsmall, hrest⟩
    exact ⟨(ok_of_smallInteger hsmall).1, _, matchOpcode_small_iff.2 ⟨hsmall, rfl⟩, hrest⟩

/-- The keys that the inner loop takes are pushes that follow each other. -/
theorem takeKeys_pushes (turns : ℕ) (pc : CScript) (vSolutions : List Bytes) :
    ∃ keys pc', PushesKeys pc' keys pc ∧
      takeKeys turns (getOp2 pc) vSolutions = (getOp2 pc', vSolutions ++ keys) := by
  induction turns generalizing pc vSolutions with
  | zero => exact ⟨[], pc, PushesKeys.nil, by simp [takeKeys]⟩
  | succ turns ih =>
    rw [takeKeys]
    by_cases hsize : 33 ≤ (getOp2 pc).data.length ∧ (getOp2 pc).data.length ≤ 65
    · rw [if_pos hsize]
      have hok : (getOp2 pc).ok = true := by
        by_contra hok
        rw [Bool.not_eq_true] at hok
        rw [(cut_of_not_ok hok).2] at hsize
        exact absurd hsize.1 (by decide)
      obtain ⟨keys, pc', hpushes, htake⟩ := ih (getOp2 pc).pc (vSolutions ++ [(getOp2 pc).data])
      refine ⟨(getOp2 pc).data :: keys, pc', PushesKeys.cons hok hsize hpushes, ?_⟩
      rw [htake, List.append_assoc]
      rfl
    · rw [if_neg hsize]
      exact ⟨[], pc, PushesKeys.nil, by simp⟩

/-- The pushes of keys that the inner loop goes through. -/
theorem pushesKeys_parses {rest pc : CScript} {keys : List Bytes} {ops : List (UInt8 × Bytes)}
    (h : PushesKeys rest keys pc) (hrest : Parses rest ops) :
    ∃ pushes, pushes.map Prod.snd = keys ∧ (∀ p ∈ pushes, KeySized p.2) ∧
      Parses pc (pushes ++ ops) := by
  induction h with
  | nil => exact ⟨[], rfl, nofun, hrest⟩
  | @cons pc keys hok hsize _ ih =>
    obtain ⟨pushes, hmap, hall, hparses⟩ := ih
    refine ⟨((getOp2 pc).opcode, (getOp2 pc).data) :: pushes, ?_, ?_,
      parses_cons_iff.2 ⟨hok, rfl, rfl, hparses⟩⟩
    · rw [List.map_cons, hmap]
    · intro p hp
      rcases List.mem_cons.1 hp with rfl | hp
      · exact hsize
      · exact hall p hp

theorem exists_pushesKeys {pc : CScript} {pushes ops : List (UInt8 × Bytes)}
    (hall : ∀ p ∈ pushes, KeySized p.2) (h : Parses pc (pushes ++ ops)) :
    ∃ rest, PushesKeys rest (pushes.map Prod.snd) pc ∧ Parses rest ops := by
  induction pushes generalizing pc with
  | nil => exact ⟨pc, PushesKeys.nil, h⟩
  | cons p pushes ih =>
    obtain ⟨hok, -, hdata, hrest⟩ := parses_cons_iff.1 h
    have hsize := hall p List.mem_cons_self
    obtain ⟨rest, hpushes, hops⟩ := ih (fun p hp => hall p (List.mem_cons_of_mem _ hp)) hrest
    rw [List.map_cons, ← hdata]
    rw [← hdata] at hsize
    exact ⟨rest, PushesKeys.cons hok hsize hpushes, hops⟩

theorem count_pushesKeys {rest pc : CScript} {keys : List Bytes} (h : PushesKeys rest keys pc) :
    keys.length + rest.length ≤ pc.length := by
  induction h with
  | nil => exact Nat.le_of_eq (Nat.zero_add _)
  | cons hok _ _ ih =>
    have hlt := length_getOp2_lt (ne_nil_of_getOp2_ok hok)
    rw [List.length_cons]
    omega

/-- The loop takes all of them and stops at the next operation. -/
theorem takeKeys_of_pushes {rest pc : CScript} {keys : List Bytes} (h : PushesKeys rest keys pc)
    (hstop : ¬KeySized (getOp2 rest).data) (hturns : keys.length < turns) :
    takeKeys turns (getOp2 pc) vSolutions = (getOp2 rest, vSolutions ++ keys) := by
  induction h generalizing turns vSolutions with
  | nil =>
    obtain ⟨turns, rfl⟩ := Nat.exists_eq_succ_of_ne_zero (Nat.ne_zero_of_lt hturns)
    rw [takeKeys, List.append_nil]
    exact if_neg hstop
  | cons hok hsize _ ih =>
    obtain ⟨turns, rfl⟩ := Nat.exists_eq_succ_of_ne_zero (Nat.ne_zero_of_lt hturns)
    rw [List.length_cons] at hturns
    rw [takeKeys, if_pos hsize, ih (by omega), List.append_assoc]
    rfl

theorem matchTemplate_keys_iff :
    matchTemplate (turns + 1) pc1 [opPubKeys, opSmallInteger, opCheckMultiSig] vSolutions =
        some found ↔
      (getOp2 pc1).ok = true ∧
        ∃ v, matchOpcode (takeKeys (pc1.length + 1) (getOp2 pc1) vSolutions).1
            ⟨true, opSmallInteger, [], [opCheckMultiSig]⟩
            (takeKeys (pc1.length + 1) (getOp2 pc1) vSolutions).2 = some v ∧
          matchTemplate turns (takeKeys (pc1.length + 1) (getOp2 pc1) vSolutions).1.pc
            [opCheckMultiSig] v = some found := by
  have hkeys : getOp2 [opPubKeys, opSmallInteger, opCheckMultiSig] =
      ⟨true, opPubKeys, [], [opSmallInteger, opCheckMultiSig]⟩ := getOp2_of_lt (by decide) _
  have hsmall : getOp2 [opSmallInteger, opCheckMultiSig] =
      ⟨true, opSmallInteger, [], [opCheckMultiSig]⟩ := getOp2_of_lt (by decide) _
  rw [matchTemplate]
  simp only [hkeys, hsmall, List.isEmpty_cons, Bool.and_false, Bool.false_eq_true, if_false,
    Bool.not_true, Bool.or_false, if_true]
  cases (getOp2 pc1).ok with
  | false => exact ⟨fun h => absurd h.symm (Option.some_ne_none _),
      fun h => absurd h.1 Bool.false_ne_true⟩
  | true =>
    rw [Bool.not_true, if_neg Bool.false_ne_true]
    exact Option.bind_eq_some_iff.trans (and_iff_right rfl).symm

theorem matchTemplate_multisig_iff :
    matchTemplate 5 s [opSmallInteger, opPubKeys, opSmallInteger, opCheckMultiSig] [] =
        some found ↔
      ∃ opm pushes opn, Small opm ∧ Small opn ∧ (∀ p ∈ pushes, KeySized p.2) ∧
        Parses s ((opm, []) :: (pushes ++ [(opn, []), (opCheckMultiSig, [])])) ∧
        found = [decodeOpN opm] :: (pushes.map Prod.snd ++ [[decodeOpN opn]]) := by
  rw [matchTemplate_small_iff]
  constructor
  · rintro ⟨hsmallm, h⟩
    obtain ⟨-, v, hv, hlast⟩ := matchTemplate_keys_iff.1 h
    obtain ⟨keys, pc', hpushes, htake⟩ := takeKeys_pushes ((getOp2 s).pc.length + 1)
      (getOp2 s).pc ([] ++ [[decodeOpN (getOp2 s).opcode]])
    rw [htake] at hv hlast
    obtain ⟨hsmalln, hv⟩ := matchOpcode_small_iff.1 hv
    obtain ⟨rest, hcons, hend⟩ := (matchTemplate_literal_iff (by decide) (by decide)).1 hlast
    obtain ⟨hnil, hfound⟩ := matchTemplate_nil_iff.1 hend
    obtain ⟨hokm, hdatam⟩ := ok_of_smallInteger hsmallm
    obtain ⟨hokn, hdatan⟩ := ok_of_smallInteger hsmalln
    have htail : Parses pc' [((getOp2 pc').opcode, []), (opCheckMultiSig, [])] :=
      parses_cons_iff.2 ⟨hokn, rfl, hdatan,
        (parses_opcode_iff (by decide)).2 ⟨rest, hcons, parses_nil_iff.2 hnil⟩⟩
    obtain ⟨pushes, rfl, hall, hparses⟩ := pushesKeys_parses hpushes htail
    refine ⟨(getOp2 s).opcode, pushes, (getOp2 pc').opcode, hsmallm, hsmalln, hall,
      parses_cons_iff.2 ⟨hokm, rfl, hdatam, hparses⟩, ?_⟩
    rw [hfound, hv, List.nil_append, List.singleton_append, List.cons_append]
  · rintro ⟨opm, pushes, opn, hsmallm, hsmalln, hall, hparses, rfl⟩
    obtain ⟨-, hopm, -, hkeys⟩ := parses_cons_iff.1 hparses
    obtain ⟨pc', hpushes, htail⟩ := exists_pushesKeys hall hkeys
    obtain ⟨-, hopn, hdatan, hlast⟩ := parses_cons_iff.1 htail
    obtain ⟨rest, hcons, hend⟩ := (parses_opcode_iff (by decide)).1 hlast
    subst hopm hopn
    have hstop : ¬KeySized (getOp2 pc').data := by
      rw [hdatan]
      exact fun h => absurd h.1 (by decide)
    have hcount := count_pushesKeys hpushes
    have htake : takeKeys ((getOp2 s).pc.length + 1) (getOp2 (getOp2 s).pc)
        ([] ++ [[decodeOpN (getOp2 s).opcode]]) = (getOp2 pc', _) :=
      takeKeys_of_pushes hpushes hstop (by omega)
    have hok : (getOp2 (getOp2 s).pc).ok = true := by
      cases pushes with
      | nil => exact (parses_cons_iff.1 hkeys).1
      | cons p pushes => exact (parses_cons_iff.1 hkeys).1
    refine ⟨hsmallm, matchTemplate_keys_iff.2 ⟨hok, ?_⟩⟩
    rw [htake]
    refine ⟨_, matchOpcode_small_iff.2 ⟨hsmalln, rfl⟩, ?_⟩
    rw [matchTemplate_literal_iff (by decide) (by decide)]
    refine ⟨rest, hcons, matchTemplate_nil_iff.2 ⟨parses_nil_iff.1 hend, ?_⟩⟩
    rw [List.nil_append, List.singleton_append, List.cons_append]

end Templates

section Solver

variable {s : CScript} {t t' : TxnOutType} {vSolutionsRet v found : List Bytes}

/-- How the scripts of each type begin. -/
def Opens (s : CScript) : TxnOutType → Prop
  | .nonstandard => False
  | .pubkey => KeySized (getOp2 s).data
  | .pubkeyhash => (getOp2 s).opcode = opDup
  | .scripthash => (getOp2 s).opcode = opHash160
  | .multisig => Small (getOp2 s).opcode
  | .nulldata => (getOp2 s).opcode = opReturn

theorem Opens.data (h : Opens s t) (hne : t ≠ .pubkey) : (getOp2 s).data = [] := by
  have hword : ∀ opcode, (getOp2 s).opcode = opcode → opPushData4 < opcode →
      opcode ≠ opInvalidOpcode → (getOp2 s).data = [] := by
    rintro opcode rfl hlt hvalid
    have hok : (getOp2 s).ok = true := by
      by_contra hok
      rw [Bool.not_eq_true] at hok
      exact hvalid (cut_of_not_ok hok).1
    exact data_of_lt hok hlt
  cases t with
  | nonstandard => exact h.elim
  | pubkey => exact absurd rfl hne
  | pubkeyhash => exact hword _ h (by decide) (by decide)
  | scripthash => exact hword _ h (by decide) (by decide)
  | multisig => exact (ok_of_smallInteger h).2
  | nulldata => exact hword _ h (by decide) (by decide)

theorem Opens.ne_pubkey (h : Opens s t) (hne : t ≠ .pubkey) : ¬Opens s .pubkey := by
  intro hkey
  change KeySized (getOp2 s).data at hkey
  rw [h.data hne] at hkey
  exact absurd hkey.1 (by decide)

/-- A script opens in one way. -/
theorem Opens.unique (h : Opens s t) (h' : Opens s t') : t = t' := by
  have hword : ∀ {t : TxnOutType}, Opens s t → t ≠ .pubkey →
      t = if (getOp2 s).opcode = opDup then .pubkeyhash
        else if (getOp2 s).opcode = opHash160 then .scripthash
        else if (getOp2 s).opcode = opReturn then .nulldata else .multisig := by
    intro t h hne
    cases t with
    | nonstandard => exact h.elim
    | pubkey => exact absurd rfl hne
    | pubkeyhash => rw [show (getOp2 s).opcode = opDup from h, if_pos rfl]
    | scripthash => rw [show (getOp2 s).opcode = opHash160 from h, if_neg (by decide), if_pos rfl]
    | nulldata =>
      rw [show (getOp2 s).opcode = opReturn from h, if_neg (by decide), if_neg (by decide),
        if_pos rfl]
    | multisig =>
      have hsmall : Small (getOp2 s).opcode := h
      have hne : ∀ opcode, ¬Small opcode → (getOp2 s).opcode ≠ opcode :=
        fun opcode hnot heq => hnot (heq ▸ hsmall)
      rw [if_neg (hne _ (by unfold Small; decide)), if_neg (hne _ (by unfold Small; decide)),
        if_neg (hne _ (by unfold Small; decide))]
  by_cases ht : t = .pubkey
  · subst ht
    by_contra hne
    exact h'.ne_pubkey (Ne.symm hne) h
  · by_cases ht' : t' = .pubkey
    · subst ht'
      exact absurd h' (h.ne_pubkey ht)
    · exact (hword h ht).trans (hword h' ht').symm

theorem isPayToScriptHash_iff : isPayToScriptHash s = true ↔
    ∃ hash : Bytes, hash.length = 20 ∧ s = [opHash160, 0x14] ++ hash ++ [opEqual] := by
  constructor
  · intro h
    unfold isPayToScriptHash at h
    simp only [Bool.and_eq_true, beq_iff_eq] at h
    obtain ⟨⟨⟨hlen, h0⟩, h1⟩, h22⟩ := h
    match s, hlen with
    | a :: b :: rest, hlen =>
      simp only [List.length_cons] at hlen
      simp only [List.getElem?_cons_zero, List.getElem?_cons_succ, Option.some.injEq] at h0 h1 h22
      have hdrop : rest.drop 20 = [opEqual] := by
        have hsize : (rest.drop 20).length = 1 := by
          rw [List.length_drop]
          omega
        obtain ⟨c, hc⟩ := List.length_eq_one_iff.1 hsize
        have hget : (rest.drop 20)[0]? = some opEqual := by
          rw [List.getElem?_drop]
          exact h22
        rw [hc] at hget ⊢
        exact congrArg (fun x => [x]) (Option.some.inj hget)
      refine ⟨rest.take 20, ?_, ?_⟩
      · rw [List.length_take]
        omega
      · rw [← hdrop, h0, h1, List.append_assoc, List.take_append_drop]
        rfl
  · rintro ⟨hash, hlen, rfl⟩
    have hlast : ([opHash160, 0x14] ++ hash ++ [opEqual])[22]? = some opEqual := by
      rw [List.getElem?_append_right (by simp [hlen])]
      simp [hlen]
    rw [isPayToScriptHash, hlast]
    simp [hlen]

theorem nulldata_iff : s.head? = some opReturn ∧ isPushOnly s.tail = true ↔
    ∃ pushes, (∀ p ∈ pushes, p.1 ≤ op16) ∧ Parses s ((opReturn, []) :: pushes) := by
  simp only [isPushOnly_iff, parses_opcode_iff (show opPushData4 < opReturn by decide)]
  constructor
  · rintro ⟨hhead, pushes, hall, hparses⟩
    cases s with
    | nil => cases hhead
    | cons opcode rest =>
      obtain rfl : opcode = opReturn := Option.some.inj hhead
      exact ⟨pushes, hall, rest, rfl, hparses⟩
  · rintro ⟨pushes, hall, rest, rfl, hparses⟩
    exact ⟨rfl, pushes, hall, hparses⟩

theorem opens_scripthash (h : isPayToScriptHash s = true) : Opens s .scripthash := by
  obtain ⟨hash, -, rfl⟩ := isPayToScriptHash_iff.1 h
  rfl

theorem opens_nulldata (h : s.head? = some opReturn ∧ isPushOnly s.tail = true) :
    Opens s .nulldata := by
  obtain ⟨pushes, -, hparses⟩ := nulldata_iff.1 h
  exact (parses_cons_iff.1 hparses).2.1

theorem opens_pubkey (h : matchTemplate 3 s [opPubKey, opCheckSig] [] = some found) :
    Opens s .pubkey := by
  obtain ⟨opcode, key, hsize, hparses, -⟩ := matchTemplate_pubkey_iff.1 h
  obtain ⟨-, -, hdata, -⟩ := parses_cons_iff.1 hparses
  change KeySized (getOp2 s).data
  rwa [hdata]

theorem opens_pubkeyhash
    (h : matchTemplate 6 s [opDup, opHash160, opPubKeyHash, opEqualVerify, opCheckSig] [] =
      some found) : Opens s .pubkeyhash := by
  obtain ⟨opcode, hash, -, hparses, -⟩ := matchTemplate_pubkeyhash_iff.1 h
  exact (parses_cons_iff.1 hparses).2.1

theorem opens_multisig
    (h : matchTemplate 5 s [opSmallInteger, opPubKeys, opSmallInteger, opCheckMultiSig] [] =
      some found) : Opens s .multisig :=
  (matchTemplate_small_iff.1 h).1

theorem scanTemplates_eq (s : CScript) : scanTemplates s templates =
    match matchTemplate 3 s [opPubKey, opCheckSig] [] with
    | some found => ⟨true, .pubkey, found⟩
    | none =>
      match matchTemplate 6 s [opDup, opHash160, opPubKeyHash, opEqualVerify, opCheckSig] [] with
      | some found => ⟨true, .pubkeyhash, found⟩
      | none =>
        match matchTemplate 5 s [opSmallInteger, opPubKeys, opSmallInteger, opCheckMultiSig] [] with
        | some found => ⟨multisigFits found, .multisig, found⟩
        | none => ⟨false, .nonstandard, []⟩ := by
  rw [templates, scanTemplates]
  dsimp only [List.length_cons, List.length_nil]
  cases matchTemplate 3 s [opPubKey, opCheckSig] [] with
  | some found => rfl
  | none =>
    dsimp only
    rw [scanTemplates]
    dsimp only [List.length_cons, List.length_nil]
    cases matchTemplate 6 s [opDup, opHash160, opPubKeyHash, opEqualVerify, opCheckSig] [] with
    | some found => rfl
    | none =>
      dsimp only
      rw [scanTemplates]
      dsimp only [List.length_cons, List.length_nil]
      cases matchTemplate 5 s [opSmallInteger, opPubKeys, opSmallInteger, opCheckMultiSig] [] with
      | some found => rfl
      | none => rfl

/-- What the numbers around the keys have to be. -/
theorem multisigFits_iff {m n : UInt8} {keys : List Bytes} :
    multisigFits ([m] :: (keys ++ [[n]])) = true ↔
      1 ≤ m.toNat ∧ m.toNat ≤ n.toNat ∧ keys.length = n.toNat := by
  have hlast : ([m] :: (keys ++ [[n]])).getLast? = some [n] := by
    rw [← List.cons_append, List.getLast?_concat]
  unfold multisigFits
  dsimp only
  rw [hlast]
  simp only [firstByte, List.head?_cons, Option.bind_some, Option.map_some, Option.getD_some,
    Bool.and_eq_true, beq_iff_eq, List.length_cons, List.length_append, List.length_nil]
  constructor
  · rintro ⟨⟨⟨hm, -⟩, hle⟩, hcount⟩
    exact ⟨of_decide_eq_true hm, of_decide_eq_true hle, by omega⟩
  · rintro ⟨hm, hle, hcount⟩
    exact ⟨⟨⟨decide_eq_true hm, decide_eq_true (Nat.le_trans hm hle)⟩, decide_eq_true hle⟩,
      by omega⟩

theorem decodeOpN_opN {m : ℕ} (h : 1 ≤ m ∧ m ≤ 16) :
    Small (opN m) ∧ decodeOpN (opN m) = UInt8.ofNat m := by
  have hall : ∀ n : Fin 17, 1 ≤ n.val → (op1 ≤ opN n.val ∧ opN n.val ≤ op16) ∧
      decodeOpN (opN n.val) = UInt8.ofNat n.val := by decide
  obtain ⟨hsmall, hdecode⟩ := hall ⟨m, by omega⟩ h.1
  exact ⟨Or.inr hsmall, hdecode⟩

/-- The solutions that the caller hands in stay for the scripts that are recognised without a
template. -/
def carried (t : TxnOutType) (vSolutionsRet : List Bytes) : List Bytes :=
  match t with
  | .scripthash => vSolutionsRet
  | .nulldata => vSolutionsRet
  | _ => []

theorem solver_eq_scan (h : Opens s t) (hhash : t ≠ .scripthash) (hdata : t ≠ .nulldata) :
    solver s vSolutionsRet = scanTemplates s templates := by
  rw [solver, if_neg fun hpay => hhash (h.unique (opens_scripthash hpay)),
    if_neg fun hnull => hdata (h.unique (opens_nulldata hnull))]

theorem solver_of_standard (h : Standard s t v) :
    solver s vSolutionsRet = ⟨true, t, carried t vSolutionsRet ++ v⟩ := by
  cases h with
  | @scripthash hash hlen heq =>
    have hpay := isPayToScriptHash_iff.2 ⟨hash, hlen, heq⟩
    have hdata : (s.drop 2).take 20 = hash := by
      rw [heq]
      exact List.take_left' hlen
    rw [solver, if_pos hpay, hdata]
    rfl
  | @nulldata pushes hall hparses =>
    have hnull := nulldata_iff.2 ⟨pushes, hall, hparses⟩
    have hnot : ¬isPayToScriptHash s = true := fun hpay =>
      nomatch (opens_nulldata hnull).unique (opens_scripthash hpay)
    rw [solver, if_neg hnot, if_pos hnull, List.append_nil]
    rfl
  | @pubkey opcode key hsize hparses =>
    have hmatch : matchTemplate 3 s [opPubKey, opCheckSig] [] = some [key] :=
      matchTemplate_pubkey_iff.2 ⟨opcode, key, hsize, hparses, rfl⟩
    rw [solver_eq_scan (opens_pubkey hmatch) (by decide) (by decide), scanTemplates_eq, hmatch]
    rfl
  | @pubkeyhash opcode hash hlen hparses =>
    have hmatch : matchTemplate 6 s [opDup, opHash160, opPubKeyHash, opEqualVerify, opCheckSig] [] =
        some [hash] := matchTemplate_pubkeyhash_iff.2 ⟨opcode, hash, hlen, hparses, rfl⟩
    have hopens := opens_pubkeyhash hmatch
    have hkey : matchTemplate 3 s [opPubKey, opCheckSig] [] = none :=
      Option.eq_none_iff_forall_ne_some.2 fun found hfound =>
        nomatch hopens.unique (opens_pubkey hfound)
    rw [solver_eq_scan hopens (by decide) (by decide), scanTemplates_eq, hkey, hmatch]
    rfl
  | @multisig m pushes hm hle hmax hall hparses =>
    obtain ⟨hsmallm, hdecodem⟩ := decodeOpN_opN (show 1 ≤ m ∧ m ≤ 16 by omega)
    obtain ⟨hsmalln, hdecoden⟩ := decodeOpN_opN (show 1 ≤ pushes.length ∧ pushes.length ≤ 16 by
      omega)
    have hmatch : matchTemplate 5 s [opSmallInteger, opPubKeys, opSmallInteger, opCheckMultiSig]
        [] = some ([UInt8.ofNat m] :: (pushes.map Prod.snd ++ [[UInt8.ofNat pushes.length]])) := by
      refine matchTemplate_multisig_iff.2 ⟨_, pushes, _, hsmallm, hsmalln, hall, hparses, ?_⟩
      rw [hdecodem, hdecoden]
    have hopens := opens_multisig hmatch
    have hkey : matchTemplate 3 s [opPubKey, opCheckSig] [] = none :=
      Option.eq_none_iff_forall_ne_some.2 fun found hfound =>
        nomatch hopens.unique (opens_pubkey hfound)
    have hhash : matchTemplate 6 s
        [opDup, opHash160, opPubKeyHash, opEqualVerify, opCheckSig] [] = none :=
      Option.eq_none_iff_forall_ne_some.2 fun found hfound =>
        nomatch hopens.unique (opens_pubkeyhash hfound)
    have hfits : multisigFits
        ([UInt8.ofNat m] :: (pushes.map Prod.snd ++ [[UInt8.ofNat pushes.length]])) = true := by
      rw [multisigFits_iff, toNat_ofNat_of_lt (by omega), toNat_ofNat_of_lt (by omega),
        List.length_map]
      exact ⟨hm, hle, rfl⟩
    rw [solver_eq_scan hopens (by decide) (by decide), scanTemplates_eq, hkey, hhash, hmatch]
    dsimp only
    rw [hfits]
    rfl

/-- What the scan leaves behind: a standard script of a template, a script of the shape of a
multisignature whose numbers do not fit, or nothing. -/
theorem scan_cases (s : CScript) :
    (∃ t v, Standard s t v ∧ (∀ vSolutionsRet, carried t vSolutionsRet = []) ∧
        scanTemplates s templates = ⟨true, t, v⟩) ∨
      (∃ m keys n, multisigFits ([m] :: (keys ++ [[n]])) = false ∧
        scanTemplates s templates = ⟨false, .multisig, [m] :: (keys ++ [[n]])⟩) ∨
      scanTemplates s templates = ⟨false, .nonstandard, []⟩ := by
  rw [scanTemplates_eq]
  cases hkey : matchTemplate 3 s [opPubKey, opCheckSig] [] with
  | some found =>
    obtain ⟨opcode, key, hsize, hparses, rfl⟩ := matchTemplate_pubkey_iff.1 hkey
    exact Or.inl ⟨_, _, .pubkey hsize hparses, fun _ => rfl, rfl⟩
  | none =>
    dsimp only
    cases hhash : matchTemplate 6 s
        [opDup, opHash160, opPubKeyHash, opEqualVerify, opCheckSig] [] with
    | some found =>
      obtain ⟨opcode, hash, hlen, hparses, rfl⟩ := matchTemplate_pubkeyhash_iff.1 hhash
      exact Or.inl ⟨_, _, .pubkeyhash hlen hparses, fun _ => rfl, rfl⟩
    | none =>
      dsimp only
      cases hmulti : matchTemplate 5 s
          [opSmallInteger, opPubKeys, opSmallInteger, opCheckMultiSig] [] with
      | none => exact Or.inr (Or.inr rfl)
      | some found =>
        obtain ⟨opm, pushes, opn, hsmallm, hsmalln, hall, hparses, rfl⟩ :=
          matchTemplate_multisig_iff.1 hmulti
        dsimp only
        cases hfits : multisigFits
            ([decodeOpN opm] :: (pushes.map Prod.snd ++ [[decodeOpN opn]])) with
        | false => exact Or.inr (Or.inl ⟨_, _, _, hfits, rfl⟩)
        | true =>
          obtain ⟨hm, hle, hcount⟩ := multisigFits_iff.1 hfits
          rw [List.length_map] at hcount
          obtain ⟨-, -, hopm⟩ := eq_opN (small_of_positive hsmallm hm)
          obtain ⟨-, hmax, hopn⟩ := eq_opN (small_of_positive hsmalln (Nat.le_trans hm hle))
          rw [hopm, hopn, ← hcount] at hparses
          refine Or.inl ⟨_, _, .multisig hm (by omega) (by omega) hall hparses,
            fun _ => rfl, ?_⟩
          rw [hcount, UInt8.ofNat_toNat, UInt8.ofNat_toNat]

/-- Where `Solver` fails it leaves nothing, or the solutions of a multisignature script whose
numbers do not fit. -/
theorem solver_of_not_standard (vSolutionsRet : List Bytes) (h : ∀ t v, ¬Standard s t v) :
    (∃ m keys n, multisigFits ([m] :: (keys ++ [[n]])) = false ∧
      solver s vSolutionsRet = ⟨false, .multisig, [m] :: (keys ++ [[n]])⟩) ∨
      solver s vSolutionsRet = ⟨false, .nonstandard, []⟩ := by
  have hpay : ¬isPayToScriptHash s = true := fun hpay => by
    obtain ⟨hash, hlen, heq⟩ := isPayToScriptHash_iff.1 hpay
    exact h _ _ (.scripthash hlen heq)
  have hnull : ¬(s.head? = some opReturn ∧ isPushOnly s.tail = true) := fun hnull => by
    obtain ⟨pushes, hall, hparses⟩ := nulldata_iff.1 hnull
    exact h _ _ (.nulldata hall hparses)
  rw [solver, if_neg hpay, if_neg hnull]
  exact (scan_cases s).resolve_left fun ⟨t, v, hstandard, _⟩ => h t v hstandard

theorem solver_cases (s : CScript) (vSolutionsRet : List Bytes) :
    (∃ t v, Standard s t v ∧
        solver s vSolutionsRet = ⟨true, t, carried t vSolutionsRet ++ v⟩) ∨
      (∃ m keys n, multisigFits ([m] :: (keys ++ [[n]])) = false ∧
        solver s vSolutionsRet = ⟨false, .multisig, [m] :: (keys ++ [[n]])⟩) ∨
      solver s vSolutionsRet = ⟨false, .nonstandard, []⟩ := by
  by_cases hstandard : ∃ t v, Standard s t v
  · obtain ⟨t, v, hstandard⟩ := hstandard
    exact Or.inl ⟨t, v, hstandard, solver_of_standard hstandard⟩
  · exact Or.inr (solver_of_not_standard vSolutionsRet fun t v hstd => hstandard ⟨t, v, hstd⟩)

/-- `Solver` succeeds on the standard scripts, and leaves their solutions. -/
theorem solver_eq_true_iff : solver s vSolutionsRet = ⟨true, t, found⟩ ↔
    ∃ v, Standard s t v ∧ found = carried t vSolutionsRet ++ v := by
  constructor
  · intro h
    rcases solver_cases s vSolutionsRet with
      ⟨t', v, hstandard, hsolver⟩ | ⟨m, keys, n, -, hsolver⟩ | hsolver
    · cases hsolver.symm.trans h
      exact ⟨v, hstandard, rfl⟩
    · cases hsolver.symm.trans h
    · cases hsolver.symm.trans h
  · rintro ⟨v, hstandard, rfl⟩
    exact solver_of_standard hstandard

/-- A type that `Solver` names is that of the script, unless it fails on a multisignature
script. -/
theorem standard_of_solved (htype : (solver s []).whichType = t) (hne : t ≠ .nonstandard)
    (hok : t = .multisig → (solver s []).ok = true) : Standard s t (solver s []).vSolutions := by
  rcases solver_cases s [] with ⟨t', v, hstandard, hsolver⟩ | ⟨m, keys, n, -, hsolver⟩ | hsolver
  · rw [hsolver] at htype ⊢
    cases htype
    cases t' <;> exact hstandard
  · rw [hsolver] at htype hok
    cases hok htype.symm
  · rw [hsolver] at htype
    exact absurd htype.symm hne

/-- The numbers of a multisignature script are single bytes at the two ends of the solutions. -/
theorem solutions_of_multisig (h : (solver s vSolutionsRet).whichType = .multisig) :
    ∃ m keys n, (solver s vSolutionsRet).vSolutions = [m] :: (keys ++ [[n]]) := by
  rcases solver_cases s vSolutionsRet with
    ⟨t, v, hstandard, hsolver⟩ | ⟨m, keys, n, -, hsolver⟩ | hsolver
  · rw [hsolver] at h ⊢
    cases h
    cases hstandard
    exact ⟨_, _, _, rfl⟩
  · rw [hsolver]
    exact ⟨m, keys, n, rfl⟩
  · rw [hsolver] at h
    cases h

end Solver

end Scrypta.Script
