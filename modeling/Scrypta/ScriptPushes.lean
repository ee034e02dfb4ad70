import Scrypta.ScriptNumbers
import Scrypta.StandardScripts

/-! Scripts that are built with `<<`, and how they are read back. -/

namespace Scrypta.Script

open Interpreter

/-- What `<<` takes. -/
inductive Item
  | vch (b : Bytes)
  | int64 (n : ℤ)
  | opcode (opcode : UInt8)

namespace Item

def WellFormed : Item → Prop
  | vch b => b.length < 2 ^ 32
  | int64 n => -2 ^ 63 < n ∧ n < 2 ^ 63
  | opcode op => opPushData4 < op

def bytes : Item → CScript
  | vch b => ScriptNum.pushData b
  | int64 n => ScriptNum.pushInt64 n
  | opcode op => [op]

/-- The item as an operation: an integer has an opcode of its own, or is pushed as a number. -/
def operation : Item → UInt8 × Bytes
  | vch b => (pushOpcode b, b)
  | int64 n =>
    if n = -1 ∨ (1 ≤ n ∧ n ≤ 16) then (UInt8.ofNat (n + 80).toNat, [])
    else if n = 0 then (op0, [])
    else (pushOpcode (ScriptNum.serialize n), ScriptNum.serialize n)
  | opcode op => (op, [])

end Item

/-- The script after the items in order. -/
def build (items : List Item) : CScript := items.foldl (fun script item => script ++ item.bytes) []

/-- At each push the number of the bytes from its data on, in 32 bits, is at least its size. -/
def Fits : List Item → Prop
  | [] => True
  | item :: items =>
    item.operation.2.length ≤ (item.operation.2 ++ build items).length % 2 ^ 32 ∧ Fits items

/-- A loop over `GetOp` with at most so many turns: the operations, and where it stops; `none`
where it is not at its end. -/
def getOpLoop : ℕ → CScript → Option (List Op × CScript)
  | _, [] => some ([], [])
  | 0, _ :: _ => none
  | turns + 1, first :: pc =>
    if (getOp2 (first :: pc)).ok then
      (getOpLoop turns (getOp2 (first :: pc)).pc).map fun r => (getOp2 (first :: pc) :: r.1, r.2)
    else some ([], (getOp2 (first :: pc)).pc)

section Building

variable {items : List Item} {item : Item} {rest : CScript}

theorem build_eq_flatMap (items : List Item) : build items = items.flatMap Item.bytes := by
  have hfold : ∀ script, items.foldl (fun script item => script ++ item.bytes) script =
      script ++ items.flatMap Item.bytes := by
    induction items with
    | nil => exact fun script => (List.append_nil script).symm
    | cons item items ih =>
      intro script
      rw [List.foldl_cons, ih, List.flatMap_cons, List.append_assoc]
  exact hfold []

theorem build_cons (item : Item) (items : List Item) :
    build (item :: items) = item.bytes ++ build items := by
  rw [build_eq_flatMap, List.flatMap_cons, ← build_eq_flatMap]

/-- An item is an opcode that pushes nothing, or it is pushed. -/
theorem Item.cases (h : item.WellFormed) :
    (∃ opcode, opPushData4 < opcode ∧ item.bytes = [opcode] ∧ item.operation = (opcode, [])) ∨
      ∃ b : Bytes, b.length < 2 ^ 32 ∧ item.bytes = ScriptNum.pushData b ∧
        item.operation = (pushOpcode b, b) := by
  cases item with
  | vch b => exact Or.inr ⟨b, h, rfl, rfl⟩
  | opcode op => exact Or.inl ⟨op, h, rfl, rfl⟩
  | int64 n =>
    unfold bytes operation ScriptNum.pushInt64
    dsimp only
    by_cases hsmall : n = -1 ∨ (1 ≤ n ∧ n ≤ 16)
    · left
      have h4 : opPushData4.toNat = 78 := rfl
      have h1 : ((op1.toNat : ℤ) - 1) = 80 := rfl
      rw [if_pos hsmall, if_pos hsmall, h1]
      refine ⟨_, ?_, rfl, rfl⟩
      rw [UInt8.lt_iff_toNat_lt, toNat_ofNat_of_lt (by omega)]
      omega
    · rw [if_neg hsmall, if_neg hsmall]
      right
      by_cases hzero : n = 0
      · rw [if_pos hzero, if_pos hzero]
        exact ⟨[], by decide, rfl, rfl⟩
      · rw [if_neg hzero, if_neg hzero]
        obtain ⟨hmin, hmax⟩ := h
        have hlen := CScriptNum.length_serialize_of_lt (show n.natAbs < 2 ^ 63 by omega)
        exact ⟨_, by omega, rfl, rfl⟩

/-- One item is read back where the bytes that are left are enough in 32 bits. -/
theorem parses_item_iff (h : item.WellFormed) {ops : List (UInt8 × Bytes)} :
    Parses (item.bytes ++ rest) (item.operation :: ops) ↔
      item.operation.2.length ≤ (item.operation.2 ++ rest).length % 2 ^ 32 ∧ Parses rest ops := by
  rcases Item.cases h with ⟨opcode, hlt, hbytes, hop⟩ | ⟨b, hlen, hbytes, hop⟩
  · rw [hbytes, hop, List.singleton_append, parses_opcode_iff hlt]
    simp
  · rw [hbytes, hop, parses_cons_iff, getOp2_pushData_eq hlen]
    by_cases hfit : b.length ≤ (b ++ rest).length % 2 ^ 32
    · rw [push_append _ hfit, and_iff_right hfit]
      simp
    · refine iff_of_false (fun hparses => ?_) fun hparses => hfit hparses.1
      have hok := hparses.1
      rw [Op.push, if_pos (Nat.not_le.1 hfit)] at hok
      cases hok

theorem parses_build_iff (h : ∀ item ∈ items, item.WellFormed) :
    Parses (build items) (items.map Item.operation) ↔ Fits items := by
  induction items with
  | nil => exact iff_of_true (parses_nil_iff.2 rfl) trivial
  | cons item items ih =>
    rw [build_cons, List.map_cons, parses_item_iff (h item List.mem_cons_self),
      ih fun item hitem => h item (List.mem_cons_of_mem _ hitem), Fits]

theorem fits_of_length_lt (h : ∀ item ∈ items, item.WellFormed)
    (hsize : (build items).length < 2 ^ 32) : Fits items := by
  induction items with
  | nil => trivial
  | cons item items ih =>
    have hle : item.operation.2.length ≤ item.bytes.length := by
      rcases Item.cases (h item List.mem_cons_self) with
        ⟨opcode, -, hbytes, hop⟩ | ⟨b, -, hbytes, hop⟩
      · rw [hop]
        exact Nat.zero_le _
      · rw [hop, hbytes]
        exact length_le_pushData b
    rw [build_cons, List.length_append] at hsize
    refine ⟨?_, ih (fun item hitem => h item (List.mem_cons_of_mem _ hitem)) (by omega)⟩
    rw [List.length_append, Nat.mod_eq_of_lt (by omega)]
    exact Nat.le_add_right _ _

set_option maxRecDepth 2000 in
/-- Bytes are pushed minimally unless they are a number with an opcode of its own. -/
theorem checkMinimalPush_iff (b : Bytes) : checkMinimalPush b (pushOpcode b) = true ↔
    ¬∃ c : UInt8, b = [c] ∧ (1 ≤ c ∧ c ≤ 16 ∨ c = 0x81) := by
  by_cases hone : b.length = 1
  · obtain ⟨c, rfl⟩ := List.length_eq_one_iff.1 hone
    have hall : ∀ n : Fin 256,
        checkMinimalPush [UInt8.ofFin n] (pushOpcode [UInt8.ofFin n]) = true ↔
        ¬(1 ≤ UInt8.ofFin n ∧ UInt8.ofFin n ≤ 16 ∨ UInt8.ofFin n = 0x81) := by
      decide
    have hc := hall c.toFin
    refine hc.trans (not_congr ⟨fun h => ⟨c, rfl, h⟩, ?_⟩)
    rintro ⟨c', heq, h⟩
    cases heq
    exact h
  · refine iff_of_true ?_ fun ⟨c, heq, _⟩ => hone (by rw [heq]; rfl)
    by_cases hlong : b.length ≤ 0xffff
    · exact checkMinimalPush_pushOpcode hone hlong
    · unfold checkMinimalPush
      rw [if_neg (by omega), if_neg (fun h => hone h.1), if_neg (fun h => hone h.1),
        if_neg (by omega), if_neg (by omega), if_neg (by omega)]

/-- The loop stops at the end, or at an operation that is cut off, within the script. -/
theorem getOpLoop_eq {turns : ℕ} {pc : CScript} (h : pc.length ≤ turns) :
    ∃ rest, getOpLoop turns pc = some (operations pc, rest) ∧ rest <:+ pc := by
  induction turns generalizing pc with
  | zero =>
    obtain rfl : pc = [] := List.eq_nil_of_length_eq_zero (Nat.le_zero.1 h)
    exact ⟨[], rfl, List.suffix_rfl⟩
  | succ turns ih =>
    cases pc with
    | nil => exact ⟨[], rfl, List.suffix_rfl⟩
    | cons first pc =>
      have hsuffix := getOp2_suffix (first :: pc)
      have hlt := length_getOp2_lt (List.cons_ne_nil first pc)
      rw [getOpLoop, operations_eq]
      cases (getOp2 (first :: pc)).ok with
      | false => exact ⟨_, rfl, hsuffix⟩
      | true =>
        obtain ⟨rest, hloop, hrest⟩ := ih (show (getOp2 (first :: pc)).pc.length ≤ turns by omega)
        rw [hloop]
        exact ⟨rest, rfl, hrest.trans hsuffix⟩

theorem length_pushData_of_lt {b : Bytes} (h : 0xffff < b.length) :
    (ScriptNum.pushData b).length = b.length + 5 := by
  have h1 : opPushData1.toNat = 76 := rfl
  rw [ScriptNum.pushData, if_neg (by omega), if_neg (by omega), if_neg (by omega)]
  rfl

/-- The bytes from the first push on are 2^32, none in 32 bits. -/
theorem not_fits {b : Bytes} (h : b.length = 2 ^ 32 - 6) : ¬Fits [.vch [0], .vch b] := by
  intro hfits
  have hpush := length_pushData_of_lt (show 0xffff < b.length by omega)
  have hlen : ([0] ++ build [.vch b]).length = 2 ^ 32 := by
    rw [build_cons, List.length_append, List.length_append, Item.bytes, hpush, h]
    rfl
  have hfit := hfits.1
  change 1 ≤ ([0] ++ build [.vch b]).length % 2 ^ 32 at hfit
  rw [hlen, Nat.mod_self] at hfit
  exact absurd hfit (by decide)

end Building

/-- In a script of more than 2^32 bytes a push of one byte is not read back. -/
theorem long_script_not_parsed :
    (∀ item ∈ [Item.vch [0], Item.vch (List.replicate (2 ^ 32 - 6) 0)], item.WellFormed) ∧
      ¬Parses (build [Item.vch [0], Item.vch (List.replicate (2 ^ 32 - 6) 0)])
        ([Item.vch [0], Item.vch (List.replicate (2 ^ 32 - 6) 0)].map Item.operation) := by
  have hwell : ∀ item ∈ [Item.vch [0], Item.vch (List.replicate (2 ^ 32 - 6) 0)],
      item.WellFormed := by
    intro item hitem
    rcases List.mem_cons.1 hitem with rfl | hitem
    · change [0].length < 2 ^ 32
      decide
    · obtain rfl := List.mem_singleton.1 hitem
      change (List.replicate (2 ^ 32 - 6) (0 : UInt8)).length < 2 ^ 32
      rw [List.length_replicate]
      decide
  exact ⟨hwell, fun hparses =>
    not_fits List.length_replicate ((parses_build_iff hwell).1 hparses)⟩

/-- What was built is read back, item by item and to the end, where every push fits in 32 bits;
pushes are minimal unless the number has an opcode, and the loop over any script comes to an
end. -/
theorem scripts_parse_back :
    (∀ items : List Item, (∀ item ∈ items, item.WellFormed) →
      (Parses (build items) (items.map Item.operation) ↔ Fits items) ∧
        ((build items).length < 2 ^ 32 →
          Parses (build items) (items.map Item.operation))) ∧
    (∀ b : Bytes, checkMinimalPush b (pushOpcode b) = true ↔
      ¬∃ c : UInt8, b = [c] ∧ (1 ≤ c ∧ c ≤ 16 ∨ c = 0x81)) ∧
    ∀ pc : CScript, (getOp2 pc).pc <:+ pc ∧
      ((getOp2 pc).ok = true → (getOp2 pc).pc.length < pc.length) ∧
      ∃ rest, getOpLoop pc.length pc = some (operations pc, rest) ∧ rest <:+ pc :=
  ⟨fun _ h => ⟨parses_build_iff h, fun hsize =>
      (parses_build_iff h).2 (fits_of_length_lt h hsize)⟩,
    checkMinimalPush_iff,
    fun pc => ⟨getOp2_suffix pc, fun hok => length_getOp2_lt (ne_nil_of_getOp2_ok hok),
      getOpLoop_eq (Nat.le_refl _)⟩⟩

end Scrypta.Script
